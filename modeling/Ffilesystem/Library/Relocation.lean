import Ffilesystem.Library.Removal

/-!
# Moving an entry with everything below it

An entry that moves takes its whole subtree along: the paths below it change
their front and nothing else (`rebase`). The entry may not move below itself, and
its new name has to be free; then the entries stay apart and housed, so the
result is a tree again. Moving the entry back restores the tree (`relocate_back`).
-/

namespace FileTree

variable {ν : Type*} [DecidableEq ν]

/-- The path after `p` was moved to `q`. -/
def rebase (p q path : List ν) : List ν := if p <+: path then q ++ path.drop p.length else path

section Rebase

variable {p q : List ν}

theorem rebase_append (rest : List ν) : rebase p q (p ++ rest) = q ++ rest := by
  rw [rebase, if_pos (List.prefix_append p rest), List.drop_left]

theorem rebase_self : rebase p q p = q := by
  simpa using rebase_append (p := p) (q := q) []

theorem rebase_elsewhere {path : List ν} (h : ¬ p <+: path) : rebase p q path = path := if_neg h

/-- The paths below `p` move below `q`, and the other ones stay. -/
theorem rebase_cases (path : List ν) :
    (∃ rest, path = p ++ rest ∧ rebase p q path = q ++ rest) ∨
      (¬ p <+: path ∧ rebase p q path = path) := by
  by_cases h : p <+: path
  · obtain ⟨rest, rfl⟩ := h
    exact .inl ⟨rest, rfl, rebase_append rest⟩
  · exact .inr ⟨h, rebase_elsewhere h⟩

theorem rebase_concat {path : List ν} {name : ν} (h : path ++ [name] ≠ p) :
    rebase p q (path ++ [name]) = rebase p q path ++ [name] := by
  by_cases hpre : p <+: path
  · obtain ⟨rest, rfl⟩ := hpre
    rw [List.append_assoc, rebase_append, rebase_append, List.append_assoc]
  · have hpre' : ¬ p <+: path ++ [name] := by
      intro hpre'
      rcases List.prefix_concat_iff.mp hpre' with heq | hpath
      · exact h heq.symm
      · exact hpre hpath
    rw [rebase_elsewhere hpre, rebase_elsewhere hpre']

/-- Moving back undoes the move of every path that was not below the new place. -/
theorem rebase_rebase {path : List ν} (h : ¬ q <+: path) : rebase q p (rebase p q path) = path := by
  rcases rebase_cases (p := p) (q := q) path with ⟨rest, rfl, heq⟩ | ⟨-, heq⟩
  · rw [heq, rebase_append]
  · rw [heq, rebase_elsewhere h]

theorem rebase_inj {path path' : List ν} (h : ¬ q <+: path) (h' : ¬ q <+: path')
    (heq : rebase p q path = rebase p q path') : path = path' := by
  rw [← rebase_rebase (p := p) h, heq, rebase_rebase h']

end Rebase

/-- The entry after the one at `p` was moved to `name` in `R`. -/
def Entry.relocate (p R : List ν) (name : ν) (x : Entry ν) : Entry ν :=
  if x.path = p then ⟨R, name, x.node⟩ else ⟨rebase p (R ++ [name]) x.dir, x.name, x.node⟩

section Entry

variable {p R : List ν} {name : ν} {x : Entry ν}

@[simp] theorem Entry.relocate_node : (x.relocate p R name).node = x.node := by
  rw [Entry.relocate]
  split <;> rfl

theorem Entry.relocate_path : (x.relocate p R name).path = rebase p (R ++ [name]) x.path := by
  rw [Entry.relocate]
  split
  · rename_i h
    rw [h, rebase_self]
    rfl
  · rename_i h
    exact (rebase_concat h).symm

theorem Entry.relocate_of_ne (h : x.path ≠ p) :
    x.relocate p R name = ⟨rebase p (R ++ [name]) x.dir, x.name, x.node⟩ := if_neg h

omit [DecidableEq ν] in
theorem Entry.ext_path {y : Entry ν} (hpath : x.path = y.path) (hnode : x.node = y.node) :
    x = y := by
  obtain ⟨dir, name, node⟩ := x
  obtain ⟨dir', name', node'⟩ := y
  obtain ⟨rfl, hname⟩ := List.append_inj' hpath rfl
  obtain rfl := List.singleton_inj.mp hname
  obtain rfl : node = node' := hnode
  rfl

end Entry

namespace Tree

variable {T : Tree ν} {p R : List ν} {name : ν}

/-- Nothing that is there is below a free name. -/
theorem not_prefix_of_lookup_eq_none (hnew : T.lookup R name = none) {D : List ν}
    (h : T.IsDir D) : ¬ R ++ [name] <+: D := by
  rintro ⟨rest, rfl⟩
  have hfind := (IsDir.of_append h).exists_lookup.2
  rw [hnew] at hfind
  cases hfind

theorem path_ne_of_lookup_eq_none (hnew : T.lookup R name = none) {x : Entry ν}
    (h : x ∈ T.entries) : x.path ≠ R ++ [name] := by
  intro hpath
  obtain ⟨hdir, hname⟩ := List.append_inj' hpath rfl
  have hfind := lookup_self h
  rw [hdir, List.singleton_inj.mp hname, hnew] at hfind
  cases hfind

theorem apart_relocate (hnew : T.lookup R name = none) {a b : Entry ν}
    (ha : a ∈ T.entries) (hb : b ∈ T.entries) (h : Apart T.fold a b) :
    Apart T.fold (a.relocate p R name) (b.relocate p R name) := by
  -- an entry that does not move is in another directory, or has another name
  have hside : ∀ x ∈ T.entries, x.path ≠ p →
      Apart T.fold ⟨R, name, x.node⟩ ⟨rebase p (R ++ [name]) x.dir, x.name, x.node⟩ := by
    intro x hx hpath hdir hname
    rcases rebase_cases (p := p) (q := R ++ [name]) x.dir with ⟨rest, -, heq⟩ | ⟨-, heq⟩
    · have hlen := congrArg List.length (hdir.trans heq)
      simp only [List.length_append, List.length_singleton] at hlen
      omega
    · have hfind := lookup_eq_some_iff.mpr ⟨hx, (hdir.trans heq).symm, hname.symm⟩
      rw [hnew] at hfind
      cases hfind
  rw [Entry.relocate, Entry.relocate]
  by_cases hpa : a.path = p
  · by_cases hpb : b.path = p
    · obtain ⟨hdir, hname⟩ := List.append_inj' (hpa.trans hpb.symm) rfl
      exact absurd (congrArg T.fold (List.singleton_inj.mp hname)) (h hdir)
    · rw [if_pos hpa, if_neg hpb]
      exact hside b hb hpb
  · by_cases hpb : b.path = p
    · rw [if_neg hpa, if_pos hpb]
      exact fun hdir hname => hside a ha hpa hdir.symm hname.symm
    · rw [if_neg hpa, if_neg hpb]
      intro hdir hname
      exact h (rebase_inj (not_prefix_of_lookup_eq_none hnew (T.housed a ha))
        (not_prefix_of_lookup_eq_none hnew (T.housed b hb)) hdir) hname

/-- A directory is one at its new path. -/
theorem isDirIn_relocate {D : List ν} (hp : p ≠ []) (h : T.IsDir D) :
    IsDirIn (T.entries.map (Entry.relocate p R name)) (rebase p (R ++ [name]) D) := by
  rcases h with rfl | ⟨x, hx, hnode, rfl⟩
  · left
    rw [rebase_elsewhere (fun hpre => hp (List.prefix_nil.mp hpre))]
  · right
    exact ⟨_, List.mem_map_of_mem hx, by rw [Entry.relocate_node, hnode], Entry.relocate_path⟩

variable (T)

/-- The tree with the entry at `p`, and all that is below it, moved to a free
name of a directory that is not below `p`. -/
def relocate (p R : List ν) (name : ν) (hp : p ≠ []) (hdir : T.IsDir R) (hout : ¬ p <+: R)
    (hnew : T.lookup R name = none) : Tree ν where
  entries := T.entries.map (Entry.relocate p R name)
  fold := T.fold
  distinct := List.pairwise_map.mpr
    (T.distinct.imp_of_mem fun ha hb h => apart_relocate hnew ha hb h)
  housed := by
    intro y hy
    obtain ⟨x, hx, rfl⟩ := List.mem_map.mp hy
    rw [Entry.relocate]
    split
    · have hR : IsDirIn (T.entries.map (Entry.relocate p R name)) (rebase p (R ++ [name]) R) :=
        isDirIn_relocate hp hdir
      rwa [rebase_elsewhere hout] at hR
    · exact isDirIn_relocate hp (T.housed x hx)

variable {T} (hp : p ≠ []) (hdir : T.IsDir R) (hout : ¬ p <+: R) (hnew : T.lookup R name = none)

theorem mem_relocate {x : Entry ν} (h : x ∈ T.entries) :
    x.relocate p R name ∈ (T.relocate p R name hp hdir hout hnew).entries :=
  List.mem_map_of_mem h

theorem isDir_relocate {D : List ν} (h : T.IsDir D) :
    (T.relocate p R name hp hdir hout hnew).IsDir (rebase p (R ++ [name]) D) :=
  isDirIn_relocate hp h

/-- The old name is free after the move. -/
theorem lookup_relocate_old {e : Entry ν} (he : e ∈ T.entries) (hpath : e.path = p) :
    (T.relocate p R name hp hdir hout hnew).lookup e.dir e.name = none := by
  cases hfind : (T.relocate p R name hp hdir hout hnew).lookup e.dir e.name with
  | none => rfl
  | some y =>
      obtain ⟨hy, hydir, hyname⟩ := lookup_eq_some_iff.mp hfind
      obtain ⟨x, hx, rfl⟩ := List.mem_map.mp hy
      by_cases hxp : x.path = p
      · rw [Entry.relocate, if_pos hxp] at hydir hyname
        have hself := lookup_eq_some_iff.mpr ⟨he, hydir.symm, hyname.symm⟩
        rw [hnew] at hself
        cases hself
      · rw [Entry.relocate_of_ne hxp] at hydir hyname
        have hsame : x.dir = e.dir := by
          rcases rebase_cases (p := p) (q := R ++ [name]) x.dir with ⟨rest, -, heq⟩ | ⟨-, heq⟩
          · have hpre : R ++ [name] <+: e.dir := ⟨rest, heq.symm.trans hydir⟩
            exact absurd hpre (not_prefix_of_lookup_eq_none hnew (T.housed e he))
          · exact heq.symm.trans hydir
        exact absurd (eq_of_fold_eq hx he hsame hyname ▸ hpath) hxp

/-- Moving the entry back restores the tree. -/
theorem relocate_back {e : Entry ν} (he : e ∈ T.entries) (hpath : e.path = p)
    (hp' : R ++ [name] ≠ [])
    (hdir' : (T.relocate p R name hp hdir hout hnew).IsDir e.dir)
    (hout' : ¬ R ++ [name] <+: e.dir)
    (hnew' : (T.relocate p R name hp hdir hout hnew).lookup e.dir e.name = none) :
    (T.relocate p R name hp hdir hout hnew).relocate (R ++ [name]) e.dir e.name
      hp' hdir' hout' hnew' = T := by
  have hback : ∀ x ∈ T.entries,
      (x.relocate p R name).relocate (R ++ [name]) e.dir e.name = x := by
    intro x hx
    apply Entry.ext_path
    · rw [Entry.relocate_path, Entry.relocate_path]
      show rebase (R ++ [name]) e.path _ = _
      rw [hpath]
      apply rebase_rebase
      intro hpre
      rcases List.prefix_concat_iff.mp hpre with heq | hbelow
      · exact path_ne_of_lookup_eq_none hnew hx heq.symm
      · exact not_prefix_of_lookup_eq_none hnew (T.housed x hx) hbelow
    · rw [Entry.relocate_node, Entry.relocate_node]
  have hentries : (T.entries.map (Entry.relocate p R name)).map
      (Entry.relocate (R ++ [name]) e.dir e.name) = T.entries := by
    rw [List.map_map]
    exact (List.map_congr_left hback).trans (List.map_id _)
  cases T
  simp only [relocate]
  congr

end Tree

end FileTree
