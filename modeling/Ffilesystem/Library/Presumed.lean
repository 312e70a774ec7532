import Ffilesystem.Library.Vacancy

/-!
# Walks that presume missing directories

A walk stops at a missing name. A presuming walk takes it for an empty directory
and goes on below it, and keeps a list of the names it took so. It is a walk
through the tree as it is: nothing is made.

When directories are made one below the other in a place that is free
(`Adds`), the walks that lead to a directory afterwards are the presuming walks
that take no other names for directories than those which are made.
-/

namespace FileTree.Tree

open Lexical (Move)

variable {ν : Type*} [DecidableEq ν]

/-- The names that the moves go down to, up to the first other move. -/
def downs : List (Move ν) → List ν
  | .down name :: rest => name :: downs rest
  | _ => []

/-- The moves lead to a directory, from below the directory `D` by the missing names
`missing`, if every missing name on the way is taken for a directory. Each such name
is in the list: where it is missed, and by which names from there, all of them folded. -/
inductive Presumes (T : Tree ν) :
    Nat → List ν → List ν → List (Move ν) → List (List ν × List ν) → Prop
  | nil (budget : Nat) (D missing : List ν) : Presumes T budget D missing [] []
  | stay {budget : Nat} {D missing : List ν} {rest : List (Move ν)}
      {taken : List (List ν × List ν)} (h : Presumes T budget D missing rest taken) :
      Presumes T budget D missing (.stay :: rest) taken
  | up {budget : Nat} {D : List ν} {rest : List (Move ν)} {taken : List (List ν × List ν)}
      (h : Presumes T budget D.dropLast [] rest taken) :
      Presumes T budget D [] (.up :: rest) taken
  | back {budget : Nat} {D missing : List ν} {name : ν} {rest : List (Move ν)}
      {taken : List (List ν × List ν)} (h : Presumes T budget D missing rest taken) :
      Presumes T budget D (missing ++ [name]) (.up :: rest) taken
  | toDir {budget : Nat} {D : List ν} {name : ν} {rest : List (Move ν)}
      {taken : List (List ν × List ν)} {e : Entry ν} (hfind : T.lookup D name = some e)
      (hnode : e.node = .dir) (h : Presumes T budget e.path [] rest taken) :
      Presumes T budget D [] (.down name :: rest) taken
  | link {budget : Nat} {D : List ν} {name : ν} {rest : List (Move ν)}
      {taken : List (List ν × List ν)} {e : Entry ν} {target : Target ν}
      (hfind : T.lookup D name = some e) (hnode : e.node = .link target)
      (h : Presumes T budget (if target.rooted then [] else D) [] (target.moves ++ rest) taken) :
      Presumes T (budget + 1) D [] (.down name :: rest) taken
  | missed {budget : Nat} {D missing : List ν} {name : ν} {rest : List (Move ν)}
      {taken : List (List ν × List ν)} (hnone : missing = [] → T.lookup D name = none)
      (h : Presumes T budget D (missing ++ [T.fold name]) rest taken) :
      Presumes T budget D missing (.down name :: rest) ((D, missing ++ [T.fold name]) :: taken)

/-- A tree in which the directories `names` are made below `R`, each in the one before it,
where the first of them is missing. -/
structure Adds (T T' : Tree ν) (R names : List ν) : Prop where
  isDir : T.IsDir R
  free : ∀ name behind, names = name :: behind → T.lookup R name = none
  lookup_iff : ∀ D name e, T'.lookup D name = some e ↔ T.lookup D name = some e ∨
    ∃ front made behind, names = front ++ made :: behind ∧ D = R ++ front ∧
      T.fold made = T.fold name ∧ e = ⟨D, made, .dir⟩

/-- The place `P` is reached from the directory `D` by names of directories that are
made, if by any, which fold to `missing`. -/
def Below (T : Tree ν) (R names D missing P : List ν) : Prop :=
  ∃ front behind, names = front ++ behind ∧ P = D ++ front ∧ missing = front.map T.fold ∧
    T.IsDir D ∧ (front ≠ [] → D = R)

/-- The names taken for directories are all names of directories that are made. -/
def Within (T : Tree ν) (R names : List ν) (taken : List (List ν × List ν)) : Prop :=
  ∀ t ∈ taken, t.1 = R ∧ t.2 <+: names.map T.fold

section Made

variable {T T' : Tree ν} {R names : List ν}

omit [DecidableEq ν] in
theorem below_self {D : List ν} (h : T.IsDir D) (R names : List ν) :
    T.Below R names D [] D :=
  ⟨[], names, rfl, (List.append_nil D).symm, rfl, h, fun hne => absurd rfl hne⟩

omit [DecidableEq ν] in
theorem Below.eq_of_nil {D P : List ν} (h : T.Below R names D [] P) : P = D ∧ T.IsDir D := by
  obtain ⟨front, -, -, rfl, hnil, hdir, -⟩ := h
  rw [List.map_eq_nil_iff.mp hnil.symm, List.append_nil]
  exact ⟨rfl, hdir⟩

theorem Adds.not_isDir (h : Adds T T' R names) {front behind : List ν}
    (hnames : names = front ++ behind) (hne : front ≠ []) : ¬ T.IsDir (R ++ front) := by
  intro hdir
  obtain ⟨name, more, rfl⟩ := List.exists_cons_of_ne_nil hne
  rw [List.append_cons] at hdir
  have hfind := (IsDir.of_append hdir).exists_lookup.2
  rw [h.free name (more ++ behind) (by rw [hnames, List.cons_append])] at hfind
  cases hfind

theorem Adds.extends_lookup (h : Adds T T' R names) {D : List ν} {name : ν} {e : Entry ν}
    (hfind : T.lookup D name = some e) : T'.lookup D name = some e :=
  (h.lookup_iff D name e).mpr (.inl hfind)

theorem Adds.missing_eq_nil (h : Adds T T' R names) {D missing P : List ν} {name : ν}
    {e : Entry ν} (hbelow : T.Below R names D missing P) (hfind : T.lookup P name = some e) :
    missing = [] ∧ P = D ∧ T.IsDir D := by
  obtain ⟨front, behind, hnames, rfl, rfl, hdir, hplace⟩ := hbelow
  cases front with
  | nil => exact ⟨rfl, List.append_nil D, hdir⟩
  | cons first front =>
      obtain rfl := hplace (List.cons_ne_nil _ _)
      obtain hnone := lookup_eq_none_of_not_isDir
        (h.not_isDir hnames (List.cons_ne_nil _ _)) name
      rw [hfind] at hnone
      cases hnone

/-- What is found at a place only in the larger tree is the next directory that is made. -/
theorem Adds.next_of_lookup (h : Adds T T' R names) {D missing P : List ν} {name : ν}
    {e : Entry ν} (hbelow : T.Below R names D missing P) (hnone : T.lookup P name = none)
    (hfind : T'.lookup P name = some e) :
    D = R ∧ missing ++ [T.fold name] <+: names.map T.fold ∧
      T.Below R names D (missing ++ [T.fold name]) e.path ∧ e.node = .dir := by
  obtain ⟨front, behind, hnames, rfl, rfl, hdir, hplace⟩ := hbelow
  cases (h.lookup_iff _ _ _).mp hfind with
  | inl hold =>
      rw [hnone] at hold
      cases hold
  | inr hnew =>
      obtain ⟨front', made, behind', hnames', hpath, hfold, rfl⟩ := hnew
      -- both descriptions of the place use as many of the names
      have hsame : D = R ∧ front' = front := by
        cases front with
        | nil =>
            rw [List.append_nil] at hpath
            have hnil : front' = [] := by
              by_contra hne
              exact h.not_isDir hnames' hne (hpath ▸ hdir)
            rw [hnil, List.append_nil] at hpath
            exact ⟨hpath, hnil⟩
        | cons first front =>
            obtain rfl := hplace (List.cons_ne_nil _ _)
            exact ⟨rfl, (List.append_cancel_left hpath).symm⟩
      obtain ⟨rfl, rfl⟩ := hsame
      have hmap : front'.map T.fold ++ [T.fold name] = (front' ++ [made]).map T.fold := by
        rw [List.map_append, List.map_singleton, hfold]
      rw [List.append_cons] at hnames'
      refine ⟨rfl, ?_, ⟨front' ++ [made], behind', hnames', ?_, hmap, hdir, fun _ => rfl⟩, rfl⟩
      · rw [hmap, hnames']
        exact (List.prefix_append _ _).map T.fold
      · rw [Entry.path, List.append_assoc]

theorem Adds.lookup_of_next (h : Adds T T' R names) {missing P : List ν} {name : ν}
    (hbelow : T.Below R names R missing P)
    (hnext : missing ++ [T.fold name] <+: names.map T.fold) :
    ∃ e, T'.lookup P name = some e ∧ e.node = .dir ∧
      T.Below R names R (missing ++ [T.fold name]) e.path := by
  obtain ⟨front, behind, hnames, rfl, rfl, hdir, -⟩ := hbelow
  obtain ⟨after, hafter⟩ := hnext
  rw [hnames, List.map_append, List.append_assoc] at hafter
  have hbehind := List.append_cancel_left hafter
  obtain ⟨made, behind', rfl, hfold, -⟩ := List.map_eq_cons_iff.mp hbehind.symm
  refine ⟨⟨R ++ front, made, .dir⟩, ?_, rfl, front ++ [made], behind', ?_, ?_, ?_, hdir,
    fun _ => rfl⟩
  · exact (h.lookup_iff _ _ _).mpr (.inr ⟨front, made, behind', hnames, rfl, hfold, rfl⟩)
  · rw [hnames, List.append_cons]
  · rw [Entry.path, List.append_assoc]
  · rw [List.map_append, List.map_singleton, hfold]

omit [DecidableEq ν] in
theorem Below.up {D missing P : List ν} (h : T.Below R names D missing P) :
    (missing = [] ∧ P = D ∧ T.Below R names D.dropLast [] P.dropLast) ∨
      ∃ upper name, missing = upper ++ [name] ∧ T.Below R names D upper P.dropLast := by
  obtain ⟨front, behind, hnames, rfl, rfl, hdir, hplace⟩ := h
  cases front using List.reverseRecOn with
  | nil =>
      rw [List.append_nil]
      exact .inl ⟨rfl, rfl, below_self (IsDir.dropLast hdir) R names⟩
  | append_singleton front last =>
      refine .inr ⟨front.map T.fold, T.fold last, List.map_append, front, last :: behind, ?_, ?_,
        rfl, hdir, fun _ => hplace (by simp)⟩
      · rw [hnames, List.append_assoc, List.singleton_append]
      · rw [← List.append_assoc, List.dropLast_concat]

theorem adds_nil (h : T.IsDir R) : Adds T T R [] where
  isDir := h
  free _ _ hnames := nomatch hnames
  lookup_iff D name e := by
    refine ⟨.inl, ?_⟩
    rintro (hfind | ⟨front, made, behind, hnames, -⟩)
    · exact hfind
    · exact absurd hnames (by simp)

theorem Adds.cons {name : ν} (hdir : T.IsDir R) (hnone : T.lookup R name = none)
    (h : Adds (T.add ⟨R, name, .dir⟩ hdir hnone) T' (R ++ [name]) names) :
    Adds T T' R (name :: names) where
  isDir := hdir
  free first behind hnames := by
    obtain ⟨rfl, -⟩ := List.cons.inj hnames
    exact hnone
  lookup_iff D other e := by
    rw [h.lookup_iff, lookup_add]
    constructor
    · rintro (hfind | ⟨front, made, behind, rfl, rfl, hfold, rfl⟩)
      · split at hfind
        · rename_i hself
          obtain ⟨rfl, hfold⟩ := hself
          obtain rfl := Option.some.inj hfind
          exact .inr ⟨[], name, names, rfl, (List.append_nil _).symm, hfold, rfl⟩
        · exact .inl hfind
      · exact .inr ⟨name :: front, made, behind, rfl, (List.append_cons _ _ _).symm, hfold, rfl⟩
    · rintro (hfind | ⟨front, made, behind, hnames, rfl, hfold, rfl⟩)
      · left
        rw [if_neg, hfind]
        rintro ⟨rfl, hfold⟩
        obtain ⟨hmem, hin, hname⟩ := lookup_eq_some_iff.mp hfind
        have hthere := lookup_eq_some_iff.mpr ⟨hmem, hin, hname.trans hfold.symm⟩
        rw [hnone] at hthere
        cases hthere
      · cases front with
        | nil =>
            obtain ⟨rfl, -⟩ := List.cons.inj hnames
            rw [List.append_nil]
            exact .inl (if_pos ⟨rfl, hfold⟩)
        | cons first front =>
            obtain ⟨rfl, rfl⟩ := List.cons.inj hnames
            exact .inr ⟨front, made, behind, rfl, List.append_cons _ _ _, hfold, rfl⟩

/-- From every directory that is below `D` the moves presume nothing but what is made. -/
def Foreseen (T : Tree ν) (R names : List ν) (budget : Nat) (s : Spot ν)
    (moves : List (Move ν)) : Prop :=
  s.isDir = true ∧ ∀ D missing, T.Below R names D missing s.path →
    ∃ taken, T.Presumes budget D missing moves taken ∧ T.Within R names taken

/-- A name leads to a directory that was there, or to the next one that is made. -/
theorem Adds.foreseen_toDir (h : Adds T T' R names) {budget : Nat} {P : List ν} {name : ν}
    {rest : List (Move ν)} {e : Entry ν} (hfind : T'.lookup P name = some e)
    (hnode : e.node = .dir) (hrest : T.Foreseen R names budget (.dir e.path) rest) :
    T.Foreseen R names budget (.dir P) (.down name :: rest) := by
  refine ⟨rfl, fun D missing hbelow => ?_⟩
  cases hold : T.lookup P name with
  | some e' =>
      obtain rfl := Option.some.inj ((h.extends_lookup hold).symm.trans hfind)
      obtain ⟨rfl, rfl, -⟩ := h.missing_eq_nil hbelow hold
      obtain ⟨taken, hpresumes, hwithin⟩ := hrest.2 _ _
        (below_self (isDir_path (lookup_eq_some_iff.mp hold).1 hnode) R names)
      exact ⟨taken, .toDir hold hnode hpresumes, hwithin⟩
  | none =>
      obtain ⟨rfl, hnext, hbelow', -⟩ := h.next_of_lookup hbelow hold hfind
      obtain ⟨taken, hpresumes, hwithin⟩ := hrest.2 _ _ hbelow'
      refine ⟨_, .missed ?_ hpresumes, ?_⟩
      · rintro rfl
        exact hbelow.eq_of_nil.1 ▸ hold
      · intro t ht
        cases List.mem_cons.mp ht with
        | inl heq => exact heq ▸ ⟨rfl, hnext⟩
        | inr hmem => exact hwithin t hmem

/-- Links are those that were there. -/
theorem Adds.foreseen_link (h : Adds T T' R names) {budget : Nat} {P : List ν} {name : ν}
    {rest : List (Move ν)} {e : Entry ν} {target : Target ν} (hfind : T'.lookup P name = some e)
    (hnode : e.node = .link target)
    (hrest : T.Foreseen R names budget (.dir (if target.rooted then [] else P))
      (target.moves ++ rest)) :
    T.Foreseen R names (budget + 1) (.dir P) (.down name :: rest) := by
  refine ⟨rfl, fun D missing hbelow => ?_⟩
  cases hold : T.lookup P name with
  | some e' =>
      obtain rfl := Option.some.inj ((h.extends_lookup hold).symm.trans hfind)
      obtain ⟨rfl, rfl, hdir⟩ := h.missing_eq_nil hbelow hold
      have hstart : T.IsDir (if target.rooted then [] else P) := by
        split
        · exact isDir_root
        · exact hdir
      obtain ⟨taken, hpresumes, hwithin⟩ := hrest.2 _ _ (below_self hstart R names)
      exact ⟨taken, .link hold hnode hpresumes, hwithin⟩
  | none =>
      obtain ⟨-, -, -, hdirNode⟩ := h.next_of_lookup hbelow hold hfind
      rw [hnode] at hdirNode
      cases hdirNode

/-- What leads to a directory in the larger tree presumes nothing but what is made. -/
theorem Adds.foreseen_of_walk (h : Adds T T' R names) {budget left : Nat} {s : Spot ν} {Q : List ν}
    {moves : List (Move ν)} (hwalk : T'.walk budget s moves = .ok (left, .dir Q)) :
    T.Foreseen R names budget s moves := by
  refine walk_ok_induction (T := T') (motive := T.Foreseen R names)
    ?nil ?stay ?up ?toDir ?toFile ?link hwalk
  case nil => exact ⟨rfl, fun D missing _ => ⟨[], .nil _ _ _, fun t ht => nomatch ht⟩⟩
  case stay =>
      rintro budget P rest ⟨-, ih⟩
      refine ⟨rfl, fun D missing hbelow => ?_⟩
      obtain ⟨taken, hpresumes, hwithin⟩ := ih D missing hbelow
      exact ⟨taken, .stay hpresumes, hwithin⟩
  case up =>
      rintro budget P rest ⟨-, ih⟩
      refine ⟨rfl, fun D missing hbelow => ?_⟩
      obtain ⟨rfl, -, hup⟩ | ⟨upper, name, rfl, hup⟩ := hbelow.up
      · obtain ⟨taken, hpresumes, hwithin⟩ := ih _ _ hup
        exact ⟨taken, .up hpresumes, hwithin⟩
      · obtain ⟨taken, hpresumes, hwithin⟩ := ih _ _ hup
        exact ⟨taken, .back hpresumes, hwithin⟩
  case toDir =>
      intro budget P name rest e hfind hnode ih
      exact h.foreseen_toDir hfind hnode ih
  case toFile =>
      rintro budget P name rest e ino - - ⟨hfalse, -⟩
      exact absurd hfalse Bool.false_ne_true
  case link =>
      intro budget P name rest e target hfind hnode _ ih
      exact h.foreseen_link hfind hnode ih

/-- What presumes nothing but what is made leads to a directory in the larger tree. -/
theorem Presumes.exists_walk (h : Adds T T' R names) {budget : Nat} {D missing : List ν}
    {moves : List (Move ν)} {taken : List (List ν × List ν)}
    (hpresumes : T.Presumes budget D missing moves taken) (hwithin : T.Within R names taken)
    {P : List ν} (hbelow : T.Below R names D missing P) :
    ∃ left Q, T'.walk budget (.dir P) moves = .ok (left, .dir Q) := by
  induction hpresumes generalizing P with
  | nil budget D missing => exact ⟨budget, P, walk_nil _ _⟩
  | stay _ ih =>
      rw [walk_stay_cons]
      exact ih hwithin hbelow
  | up _ ih =>
      rw [walk_up_cons]
      obtain ⟨-, -, hup⟩ | ⟨upper, name, hnil, -⟩ := hbelow.up
      · exact ih hwithin hup
      · exact absurd hnil.symm (by simp)
  | back _ ih =>
      rw [walk_up_cons]
      obtain ⟨hnil, -⟩ | ⟨upper, name, heq, hup⟩ := hbelow.up
      · exact absurd hnil (by simp)
      · obtain ⟨rfl, -⟩ := List.append_inj' heq rfl
        exact ih hwithin hup
  | toDir hfind hnode _ ih =>
      obtain ⟨rfl, -⟩ := hbelow.eq_of_nil
      rw [walk_down_of_dir (h.extends_lookup hfind) hnode]
      exact ih hwithin
        (below_self (isDir_path (lookup_eq_some_iff.mp hfind).1 hnode) R names)
  | link hfind hnode _ ih =>
      obtain ⟨rfl, hdir⟩ := hbelow.eq_of_nil
      rw [walk_down_of_link_succ (h.extends_lookup hfind) hnode]
      apply ih hwithin
      split
      · exact below_self isDir_root R names
      · exact below_self hdir R names
  | missed _ _ ih =>
      obtain ⟨rfl, hnext⟩ := hwithin _ List.mem_cons_self
      obtain ⟨e, hfind, hnode, hbelow'⟩ := h.lookup_of_next hbelow hnext
      rw [walk_down_of_dir hfind hnode]
      exact ih (fun t ht => hwithin t (List.mem_cons_of_mem _ ht)) hbelow'

/-- The walks that lead to a directory in the larger tree are those that presume
nothing but what is made. -/
theorem Adds.walk_iff (h : Adds T T' R names) {budget : Nat} {D : List ν}
    (hdir : T.IsDir D) (moves : List (Move ν)) :
    (∃ left Q, T'.walk budget (.dir D) moves = .ok (left, .dir Q)) ↔
      ∃ taken, T.Presumes budget D [] moves taken ∧ T.Within R names taken := by
  constructor
  · rintro ⟨left, Q, hwalk⟩
    exact (h.foreseen_of_walk hwalk).2 D [] (below_self hdir R names)
  · rintro ⟨taken, hpresumes, hwithin⟩
    exact hpresumes.exists_walk h hwithin (below_self hdir R names)

end Made

end FileTree.Tree
