import Ffilesystem.Library.FileTree

/-!
# Taking a link out of a tree

How many links a walk may follow decides whether it arrives, never where
(`walk_unique`). So a link that leads to a file leads every walk to that file,
and a walk that ends elsewhere has not followed it: such a walk is the same in
the tree without the link (`walk_remove`).
-/

namespace FileTree

open Lexical (Move)

namespace Tree

variable {ν : Type*} [DecidableEq ν] {T : Tree ν}

section Budget

/-- A larger budget leaves more of it at the end, and changes nothing else. -/
theorem walk_add {budget left : Nat} {s spot : Spot ν} {moves : List (Move ν)}
    (h : T.walk budget s moves = .ok (left, spot)) (k : Nat) :
    T.walk (budget + k) s moves = .ok (left + k, spot) := by
  refine walk_ok_induction (motive := fun budget s moves =>
    T.walk (budget + k) s moves = .ok (left + k, spot)) ?nil ?stay ?up ?toDir ?toFile ?link h
  case nil => exact walk_nil (left + k) spot
  case stay =>
      intro budget R rest ih
      rwa [walk_stay_cons]
  case up =>
      intro budget R rest ih
      rwa [walk_up_cons]
  case toDir =>
      intro budget R name rest e hfind hnode ih
      rwa [walk_down_of_dir hfind hnode]
  case toFile =>
      intro budget R name rest e ino hfind hnode ih
      rwa [walk_down_of_file hfind hnode]
  case link =>
      intro budget R name rest e target hfind hnode _ ih
      rwa [Nat.add_right_comm, walk_down_of_link_succ hfind hnode]

/-- Two walks of the same moves that arrive arrive at the same spot. -/
theorem walk_unique {budget budget' : Nat} {s : Spot ν} {moves : List (Move ν)}
    {r r' : Nat × Spot ν} (h : T.walk budget s moves = .ok r)
    (h' : T.walk budget' s moves = .ok r') : r.2 = r'.2 := by
  obtain ⟨left, spot⟩ := r
  obtain ⟨left', spot'⟩ := r'
  have hsum := walk_add h budget'
  have hsum' := walk_add h' budget
  rw [Nat.add_comm budget' budget, hsum] at hsum'
  exact (Prod.mk.inj (Except.ok.inj hsum')).2

end Budget

section Remove

variable {e : Entry ν} (hempty : ∀ e' ∈ T.entries, e'.dir ≠ e.path)

theorem lookup_remove_of_ne {R : List ν} {name : ν} {e' : Entry ν}
    (h : T.lookup R name = some e') (hne : e' ≠ e) :
    (T.remove e hempty).lookup R name = some e' := by
  obtain ⟨hmem, hdir, hname⟩ := lookup_eq_some_iff.mp h
  exact lookup_eq_some_iff.mpr ⟨List.mem_filter.mpr ⟨hmem, decide_eq_true hne⟩, hdir, hname⟩

theorem lookup_remove_self {R : List ν} {name : ν} (h : T.lookup R name = some e) :
    (T.remove e hempty).lookup R name = none := by
  cases hfind : (T.remove e hempty).lookup R name with
  | none => rfl
  | some e' =>
      obtain ⟨hmem, hdir, hname⟩ := lookup_eq_some_iff.mp hfind
      obtain ⟨hmem', hne⟩ := List.mem_filter.mp hmem
      have hsame := lookup_eq_some_iff.mpr ⟨hmem', hdir, hname⟩
      rw [h] at hsame
      exact absurd (Option.some.inj hsame).symm (of_decide_eq_true hne)

theorem isDir_remove (hnode : e.node ≠ .dir) {R : List ν} (h : T.IsDir R) :
    (T.remove e hempty).IsDir R := by
  cases h with
  | inl hroot => exact .inl hroot
  | inr hentry =>
      obtain ⟨p, hmem, hdir, hpath⟩ := hentry
      have hne : p ≠ e := fun heq => hnode (heq ▸ hdir)
      exact .inr ⟨p, List.mem_filter.mpr ⟨hmem, decide_eq_true hne⟩, hdir, hpath⟩

/-- A walk that does not end at the file that a link leads to does without the
link. -/
theorem walk_remove {target : Target ν} (hnode : e.node = .link target)
    {b l : Nat} {Rt : List ν} {nt : ν} {ino : Nat}
    (htarget : T.walk b (.dir (if target.rooted then [] else e.dir)) target.moves =
      .ok (l, .file Rt nt ino))
    {budget : Nat} {s : Spot ν} {moves : List (Move ν)} {r : Nat × Spot ν}
    (h : T.walk budget s moves = .ok r) (hr : r.2 ≠ .file Rt nt ino) :
    (T.remove e hempty).walk budget s moves = .ok r := by
  have hother : ∀ {e' : Entry ν}, e'.node ≠ .link target → e' ≠ e := by
    rintro e' hne rfl
    exact hne hnode
  refine walk_ok_induction (motive := fun budget s moves =>
    (T.remove e hempty).walk budget s moves = .ok r) ?nil ?stay ?up ?toDir ?toFile ?link h
  case nil => exact walk_nil r.1 r.2
  case stay =>
      intro budget R rest ih
      rwa [walk_stay_cons]
  case up =>
      intro budget R rest ih
      rwa [walk_up_cons]
  case toDir =>
      intro budget R name rest e' hfind hdir ih
      rwa [walk_down_of_dir (lookup_remove_of_ne hempty hfind (hother (by simp [hdir]))) hdir]
  case toFile =>
      intro budget R name rest e' ino' hfind hfile ih
      rwa [walk_down_of_file (lookup_remove_of_ne hempty hfind (hother (by simp [hfile]))) hfile]
  case link =>
      intro budget R name rest e' target' hfind hlink hwalk ih
      by_cases heq : e' = e
      · -- the link leads to its file, and nothing leads on from there
        subst heq
        obtain rfl : target' = target := Node.link.inj (hlink.symm.trans hnode)
        obtain ⟨-, hdir, -⟩ := lookup_eq_some_iff.mp hfind
        rw [← hdir] at hwalk
        obtain ⟨left, spot, hfront, hrest⟩ := exists_walk_of_append hwalk
        obtain rfl : spot = .file Rt nt ino := walk_unique hfront htarget
        cases rest with
        | nil =>
            rw [walk_nil] at hrest
            cases hrest
            exact absurd rfl hr
        | cons move rest =>
            rw [walk_file_cons] at hrest
            cases hrest
      · rwa [walk_down_of_link_succ (lookup_remove_of_ne hempty hfind heq) hlink]

end Remove

end Tree

end FileTree
