import Mathlib.Data.List.Induction
import Mathlib.Logic.Function.Basic

/-!
# Stores kept as lists

A store gives each key a value or none. Kept as a list of pairs it may hold a key
more than once. A lookup finds the first of them and a write replaces the first,
so the others stay hidden. Only a key that is dropped must be dropped everywhere,
or an older value would come to light.

Either operation changes what one key gives and nothing else (`view_write`,
`view_drop`). Of a list of changes the last one to a key decides about it
(`foldl_update_apply`). Neither makes a key stand twice, and a search that looks at
the values of a key comes to its first one then (`findSome?_key`).
-/

namespace Store

variable {κ ν : Type*} [DecidableEq κ]

def write (k : κ) (v : ν) : List (κ × ν) → List (κ × ν)
  | [] => [(k, v)]
  | (k', v') :: rest => if k' = k then (k, v) :: rest else (k', v') :: write k v rest

def drop (k : κ) (entries : List (κ × ν)) : List (κ × ν) := entries.filter (·.1 ≠ k)

/-- What the keys give. -/
def view (entries : List (κ × ν)) (k : κ) : Option ν := entries.lookup k

theorem view_cons (k k' : κ) (v : ν) (entries : List (κ × ν)) :
    view ((k, v) :: entries) k' = if k' = k then some v else view entries k' := by
  rw [view, List.lookup_cons]
  by_cases hkey : k' = k
  · rw [if_pos hkey, hkey, beq_self_eq_true]
  · rw [if_neg hkey, beq_false_of_ne hkey]
    rfl

theorem view_write (k : κ) (v : ν) (entries : List (κ × ν)) :
    view (write k v entries) = Function.update (view entries) k (some v) := by
  funext k'
  induction entries with
  | nil =>
      rw [write, view_cons]
      by_cases hkey : k' = k
      · rw [if_pos hkey, hkey, Function.update_self]
      · rw [if_neg hkey, Function.update_of_ne hkey]
  | cons entry rest ih =>
      obtain ⟨k₁, v₁⟩ := entry
      rw [write]
      by_cases hfirst : k₁ = k
      · rw [if_pos hfirst, view_cons]
        by_cases hkey : k' = k
        · rw [if_pos hkey, hkey, Function.update_self]
        · rw [if_neg hkey, Function.update_of_ne hkey, view_cons, hfirst, if_neg hkey]
      · rw [if_neg hfirst, view_cons, ih]
        by_cases hkey : k' = k
        · rw [hkey, if_neg (Ne.symm hfirst), Function.update_self, Function.update_self]
        · rw [Function.update_of_ne hkey, Function.update_of_ne hkey, view_cons]

theorem view_drop (k : κ) (entries : List (κ × ν)) :
    view (drop k entries) = Function.update (view entries) k none := by
  funext k'
  induction entries with
  | nil =>
      show none = _
      by_cases hkey : k' = k
      · rw [hkey, Function.update_self]
      · rw [Function.update_of_ne hkey]
        rfl
  | cons entry rest ih =>
      obtain ⟨k₁, v₁⟩ := entry
      rw [drop] at ih ⊢
      by_cases hfirst : k₁ = k
      · rw [List.filter_cons_of_neg (by simpa using hfirst), ih]
        by_cases hkey : k' = k
        · rw [hkey, Function.update_self, Function.update_self]
        · rw [Function.update_of_ne hkey, Function.update_of_ne hkey, view_cons, hfirst,
            if_neg hkey]
      · rw [List.filter_cons_of_pos (by simpa using hfirst), view_cons, ih]
        by_cases hkey : k' = k
        · rw [hkey, if_neg (Ne.symm hfirst), Function.update_self, Function.update_self]
        · rw [Function.update_of_ne hkey, Function.update_of_ne hkey, view_cons]

/-- The keys of a list, in order. -/
abbrev keys (entries : List (κ × ν)) : List κ := entries.map Prod.fst

theorem mem_keys_write {k k' : κ} {v : ν} {entries : List (κ × ν)}
    (h : k' ∈ keys (write k v entries)) : k' = k ∨ k' ∈ keys entries := by
  induction entries with
  | nil => exact .inl (List.mem_singleton.mp h)
  | cons entry rest ih =>
      rw [write] at h
      split at h
      · exact (List.mem_cons.mp h).imp id (List.mem_cons_of_mem _)
      · rcases List.mem_cons.mp h with rfl | hrest
        · exact .inr List.mem_cons_self
        · exact (ih hrest).imp_right (List.mem_cons_of_mem _)

theorem nodup_write (k : κ) (v : ν) {entries : List (κ × ν)} (h : (keys entries).Nodup) :
    (keys (write k v entries)).Nodup := by
  induction entries with
  | nil => exact List.pairwise_singleton _ k
  | cons entry rest ih =>
      obtain ⟨hfirst, hrest⟩ := List.nodup_cons.mp h
      rw [write]
      split
      · rename_i hkey
        exact List.nodup_cons.mpr ⟨hkey ▸ hfirst, hrest⟩
      · rename_i hkey
        refine List.nodup_cons.mpr ⟨fun hmem => ?_, ih hrest⟩
        exact (mem_keys_write hmem).elim hkey hfirst

theorem nodup_drop (k : κ) {entries : List (κ × ν)} (h : (keys entries).Nodup) :
    (keys (drop k entries)).Nodup :=
  h.sublist (List.filter_sublist.map Prod.fst)

theorem view_eq_none_of_not_mem {k : κ} {entries : List (κ × ν)} (h : k ∉ keys entries) :
    view entries k = none := by
  induction entries with
  | nil => rfl
  | cons entry rest ih =>
      rw [view_cons, if_neg (List.ne_of_not_mem_cons h), ih (List.not_mem_of_not_mem_cons h)]

/-- A search through the values of a key ends at the first of them, if it accepts all
values or the key stands there only once. -/
theorem findSome?_key {β : Type*} (k : κ) {f : ν → Option β} {entries : List (κ × ν)}
    (h : (∀ v, f v ≠ none) ∨ (keys entries).Nodup) :
    (entries.findSome? fun entry => if entry.1 = k then f entry.2 else none) =
      (view entries k).bind f := by
  induction entries with
  | nil => rfl
  | cons entry rest ih =>
      have hrest := ih (h.imp_right fun hnodup => (List.nodup_cons.mp hnodup).2)
      rw [List.findSome?_cons, view_cons]
      by_cases hkey : entry.1 = k
      · rw [if_pos hkey, if_pos hkey.symm, Option.bind_some]
        cases hf : f entry.2 with
        | some b => rfl
        | none =>
            -- the value was refused, and the key does not stand there again
            have hnodup := h.resolve_left fun hall => hall _ hf
            have hnone : view rest k = none :=
              view_eq_none_of_not_mem (hkey ▸ (List.nodup_cons.mp hnodup).1)
            rw [hrest, hnone]
            rfl
      · rw [if_neg hkey, if_neg (Ne.symm hkey), hrest]

/-- The last change to a key decides what it gives. -/
theorem foldl_update_apply (changes : List (κ × ν)) (s : κ → ν) (k : κ) :
    changes.foldl (fun s change => Function.update s change.1 change.2) s k =
      (view changes.reverse k).getD (s k) := by
  induction changes using List.reverseRecOn with
  | nil => rfl
  | append_singleton changes change ih =>
      obtain ⟨k₁, v₁⟩ := change
      rw [List.foldl_append, List.foldl_cons, List.foldl_nil, List.reverse_append,
        List.reverse_singleton, List.singleton_append, view_cons]
      by_cases hkey : k = k₁
      · rw [if_pos hkey, hkey, Function.update_self]
        rfl
      · rw [if_neg hkey, Function.update_of_ne hkey, ih]

end Store
