import Ffilesystem.Normalize

/-!
# Lexical containment: `is_prefix` and `is_subdir`

Both functions normalize their arguments and compare the two strings character
by character. Containment of directories is a relation between component lists,
so the two notions agree only when the shorter string ends at a component
boundary of the longer one. `EndsAtComponent` is that condition, stated on the
two normal forms.
-/

namespace Ffilesystem

open Lexical

/-- Lexicographically, is `pre` a prefix of `path`. -/
def isPrefix (pl : Platform) (pre path : Str) : Bool :=
  if pre.isEmpty || path.isEmpty then false
  else
    let pr := normal pl pre
    let p := normal pl path
    if pr = p then true
    else if pr.length > p.length then false
    else p.take pr.length == pr

/-- Lexicographically, is `subdir` a subdirectory of `dir`. -/
def isSubdir (pl : Platform) (subdir dir : Str) : Bool :=
  if subdir.isEmpty || dir.isEmpty then false
  else
    let s := normal pl subdir
    let d := normal pl dir
    if s = d then false
    else if s.length < d.length then false
    else s.take d.length == d

/-- The components of a path in normal form; `"."` and `"/"` have none. -/
def componentsOfNormal (r : Str) : List Str := if r = dot then [] else Scan.components '/' r

/-- Containment of directories, for two paths in normal form: the same root, a
proper prefix of the components, and no way up among the remaining ones. -/
def IsBelow (s d : Str) : Prop :=
  isRooted s = isRooted d ∧
    componentsOfNormal d <+: componentsOfNormal s ∧
    componentsOfNormal d ≠ componentsOfNormal s ∧
    dotdot ∉ (componentsOfNormal s).drop (componentsOfNormal d).length

instance (s d : Str) : Decidable (IsBelow s d) := by
  unfold IsBelow
  infer_instance

def firstComponent (s : Str) : Option Str := (Scan.components '/' s).head?

/-- The string comparison of two normal forms stops at a component boundary,
and what follows there does not go up. Below `"."` the comparison looks for a
leading dot, which only hidden names and `".."` have. -/
def EndsAtComponent (s d : Str) : Prop :=
  if d = ['/'] then True
  else if d = dot then
    isRooted s = true ∨ s.head? = some '.' ∧ firstComponent s ≠ some dotdot
  else
    d <+: s → s = d ∨ (s.drop d.length).head? = some '/' ∧
      firstComponent (s.drop d.length) ≠ some dotdot

theorem isPrefix_iff {pre path : Str} (hpre : pre ≠ []) (hpath : path ≠ []) :
    isPrefix .posix pre path = true ↔ normal .posix pre <+: normal .posix path := by
  simp only [isPrefix, List.isEmpty_iff, hpre, hpath, if_false, Bool.or_eq_true, or_self]
  split
  · next heq => simp [heq]
  · split
    · next hlt => simpa using fun h => absurd (List.IsPrefix.length_le h) (by omega)
    · rw [beq_iff_eq, eq_comm, ← List.prefix_iff_eq_take]

theorem isSubdir_iff {subdir dir : Str} (hsub : subdir ≠ []) (hdir : dir ≠ []) :
    isSubdir .posix subdir dir = true ↔
      normal .posix subdir ≠ normal .posix dir ∧ normal .posix dir <+: normal .posix subdir := by
  simp only [isSubdir, List.isEmpty_iff, hsub, hdir, if_false, Bool.or_eq_true, or_self]
  split
  · next heq => simp [heq]
  · next hne =>
      split
      · next hlt => simpa using fun _ h => absurd (List.IsPrefix.length_le h) (by omega)
      · rw [beq_iff_eq, eq_comm, ← List.prefix_iff_eq_take, and_iff_right hne]

section Render

variable {s d : Place Name}

theorem componentsOfNormal_render (m : Place Name) : componentsOfNormal (render m) = parts m := by
  cases hroot : m.rooted with
  | true => simp [componentsOfNormal, render, hroot, dot, Scan.components_intercalate (parts_ok m)]
  | false =>
      by_cases hparts : parts m = []
      · simp [componentsOfNormal, render, hroot, hparts]
      · have hne : ['/'].intercalate (parts m) ≠ dot := by
          intro hdot
          have hback := Scan.components_intercalate (parts_ok m)
          rw [hdot] at hback
          exact (of_mem_parts (m := m) (s := dot) (by rw [← hback]; decide)).2.1 rfl
        simp [componentsOfNormal, render, hroot, hparts, hne,
          Scan.components_intercalate (parts_ok m)]

theorem isRooted_render (m : Place Name) : isRooted (render m) = m.rooted := by
  have h := congrArg Place.rooted (place_render m)
  rwa [place_rooted] at h

theorem render_eq_dot_iff (m : Place Name) :
    render m = dot ↔ m.rooted = false ∧ parts m = [] := by
  have hdot : render (Place.start false) = dot := rfl
  rw [← hdot, render_injective.eq_iff]
  constructor
  · rintro rfl
    exact ⟨rfl, parts_start false⟩
  · rintro ⟨hroot, hparts⟩
    rw [eq_start_of_parts_nil hparts, hroot]

theorem render_eq_slash_iff (m : Place Name) :
    render m = ['/'] ↔ m.rooted = true ∧ parts m = [] := by
  have hslash : render (Place.start true) = ['/'] := rfl
  rw [← hslash, render_injective.eq_iff]
  constructor
  · rintro rfl
    exact ⟨rfl, parts_start true⟩
  · rintro ⟨hroot, hparts⟩
    rw [eq_start_of_parts_nil hparts, hroot]

theorem render_of_parts_ne_nil {m : Place Name} (h : parts m ≠ []) :
    render m = (if m.rooted then ['/'] else []) ++ ['/'].intercalate (parts m) := by
  cases hroot : m.rooted <;> simp [render, hroot, h]

/-- Two places with the same root and the same components are the same. -/
theorem eq_of_parts {m m' : Place Name} (hroot : m.rooted = m'.rooted)
    (hparts : parts m = parts m') : m = m' := by
  refine Place.moves_injective hroot ?_
  rw [← map_moveOf_parts, ← map_moveOf_parts, hparts]

/-- A `".."` anywhere in the tail of the components is at its front already. -/
theorem head?_of_dotdot_mem {m : Place Name} {front rest : List Str}
    (hparts : parts m = front ++ rest) (hmem : dotdot ∈ rest) : rest.head? = some dotdot := by
  have hnames : dotdot ∉ m.names.map Subtype.val := by
    intro h
    obtain ⟨n, _, hn⟩ := List.mem_map.mp h
    exact n.2.2.2.1 hn
  rw [parts_eq] at hparts
  rcases List.append_eq_append_iff.mp hparts with ⟨extra, rfl, hrest⟩ | ⟨extra, hups, rfl⟩
  · rw [hrest] at hnames
    exact absurd (List.mem_append_right _ hmem) hnames
  · cases extra with
    | nil => exact absurd hmem hnames
    | cons e extra =>
        have he : e ∈ List.replicate m.ups dotdot := hups ▸ by simp
        simp [List.eq_of_mem_replicate he]

theorem isBelow_render :
    IsBelow (render s) (render d) ↔ s.rooted = d.rooted ∧ parts d <+: parts s ∧
      parts d ≠ parts s ∧ dotdot ∉ (parts s).drop (parts d).length := by
  simp only [IsBelow, isRooted_render, componentsOfNormal_render]

/-- A normal form that strictly extends another one, with a component of its
own after the slash, has that component list as an extension. -/
theorem isBelow_of_slash {rest : Str} (hd : parts d ≠ [])
    (happ : render s = render d ++ '/' :: rest) (hfirst : firstComponent rest ≠ some dotdot) :
    IsBelow (render s) (render d) := by
  have hcut : componentsOfNormal (render s) =
      componentsOfNormal (render d) ++ Scan.components '/' rest := by
    have hdne : render d ≠ dot := fun h => hd ((render_eq_dot_iff d).mp h).2
    have hsne : render s ≠ dot := by
      rw [happ]
      intro h
      have hlen := congrArg List.length h
      have hpos : render d ≠ [] := by
        rw [render_of_parts_ne_nil hd]
        simp [intercalate_parts_ne_nil hd]
      have := List.length_pos_iff.mpr hpos
      simp [dot] at hlen
      omega
    rw [componentsOfNormal, if_neg hsne, componentsOfNormal, if_neg hdne, happ,
      Scan.components_append_cons]
  rw [componentsOfNormal_render, componentsOfNormal_render] at hcut
  have hroot : s.rooted = d.rooted := by
    rw [← isRooted_render s, ← isRooted_render d, happ]
    have hne : render d ≠ [] := by
      rw [render_of_parts_ne_nil hd]
      simp [intercalate_parts_ne_nil hd]
    obtain ⟨c, tail, hcons⟩ := List.exists_cons_of_ne_nil hne
    simp [isRooted, hcons]
  refine isBelow_render.mpr ⟨hroot, ⟨_, hcut.symm⟩, ?_, ?_⟩
  · intro hsame
    have heq := congrArg List.length happ
    rw [eq_of_parts hroot hsame.symm] at heq
    simp at heq
  · rw [hcut, List.drop_left]
    intro hmem
    exact hfirst (head?_of_dotdot_mem hcut hmem)

/-- Containment, read back on the strings. -/
theorem exists_slash_of_isBelow (hd : parts d ≠ []) (h : IsBelow (render s) (render d)) :
    ∃ rest, render s = render d ++ '/' :: rest ∧ firstComponent rest ≠ some dotdot := by
  obtain ⟨hroot, ⟨rest, hrest⟩, hne, hdd⟩ := isBelow_render.mp h
  have hrestne : rest ≠ [] := by
    rintro rfl
    exact hne (by simpa using hrest)
  have hrestok : ∀ piece ∈ rest, piece ≠ [] ∧ '/' ∉ piece := fun piece hp =>
    parts_ok s piece (hrest ▸ List.mem_append_right _ hp)
  refine ⟨['/'].intercalate rest, ?_, ?_⟩
  · rw [render_of_parts_ne_nil hd, render_of_parts_ne_nil (by simp [← hrest, hd]), ← hrest,
      Scan.intercalate_append hd hrestne, hroot]
    simp
  · rw [firstComponent, Scan.components_intercalate hrestok]
    intro hfirst
    rw [← hrest, List.drop_left] at hdd
    exact hdd (List.mem_of_head? hfirst)

/-- Below `"."` lie the places without a climb. -/
theorem isBelow_dot_iff (hd : d.rooted = false ∧ parts d = []) :
    IsBelow (render s) (render d) ↔
      s.rooted = false ∧ parts s ≠ [] ∧ firstComponent (render s) ≠ some dotdot := by
  rw [isBelow_render, hd.1, hd.2]
  have hfirst (hroot : s.rooted = false) (hparts : parts s ≠ []) :
      firstComponent (render s) = (parts s).head? := by
    rw [firstComponent, render_of_parts_ne_nil hparts, hroot]
    simp [Scan.components_intercalate (parts_ok s)]
  constructor
  · rintro ⟨hroot, _, hne, hdd⟩
    refine ⟨hroot, Ne.symm hne, ?_⟩
    rw [hfirst hroot (Ne.symm hne)]
    exact fun h => hdd (List.mem_of_head? h)
  · rintro ⟨hroot, hne, hdd⟩
    rw [hfirst hroot hne] at hdd
    refine ⟨hroot, List.nil_prefix, Ne.symm hne, fun hmem => hdd ?_⟩
    exact head?_of_dotdot_mem (List.nil_append _).symm (by simpa using hmem)

/-- Everything rooted but the root itself lies below the root. -/
theorem isBelow_slash_iff (hd : d.rooted = true ∧ parts d = []) :
    IsBelow (render s) (render d) ↔ s.rooted = true ∧ parts s ≠ [] := by
  rw [isBelow_render, hd.1, hd.2]
  constructor
  · rintro ⟨hroot, _, hne, _⟩
    exact ⟨hroot, Ne.symm hne⟩
  · rintro ⟨hroot, hne⟩
    refine ⟨hroot, List.nil_prefix, Ne.symm hne, fun hmem => ?_⟩
    have hup := map_moveOf_parts s ▸ List.mem_map_of_mem (f := moveOf) (by simpa using hmem)
    exact s.up_not_mem_moves_of_rooted hroot (by simpa using hup)

/-- A path below `"."` that climbs starts with a dot all the same. -/
theorem head?_render_of_climb (hroot : s.rooted = false) (hparts : parts s ≠ [])
    (hfirst : firstComponent (render s) = some dotdot) : (render s).head? = some '.' := by
  rw [firstComponent, render_of_parts_ne_nil hparts, hroot] at hfirst
  simp only [Bool.false_eq_true, if_false, List.nil_append,
    Scan.components_intercalate (parts_ok s)] at hfirst
  obtain ⟨rest, hrest⟩ := List.head?_eq_some_iff.mp hfirst
  rw [render_of_parts_ne_nil hparts, hroot, hrest, if_neg (by simp), List.nil_append,
    Scan.head?_intercalate (by decide)]
  rfl

/-- Comparing against the root: a string starts with a slash when it is rooted. -/
theorem agree_slash (hd : d.rooted = true ∧ parts d = []) :
    ((render s ≠ render d ∧ render d <+: render s) ↔ IsBelow (render s) (render d)) ↔
      EndsAtComponent (render s) (render d) := by
  have hrender : render d = ['/'] := (render_eq_slash_iff d).mpr hd
  have hs : ['/'] <+: render s ↔ s.rooted = true := by
    rw [← isRooted_render, isRooted, beq_iff_eq]
    cases render s <;> simp [List.cons_prefix_cons, eq_comm]
  rw [isBelow_slash_iff hd, EndsAtComponent, if_pos hrender, hrender, hs, Ne, render_eq_slash_iff]
  tauto

/-- Comparing against the dot: only a leading dot makes it a prefix. -/
theorem agree_dot (hd : d.rooted = false ∧ parts d = []) :
    ((render s ≠ render d ∧ render d <+: render s) ↔ IsBelow (render s) (render d)) ↔
      EndsAtComponent (render s) (render d) := by
  have hrender : render d = dot := (render_eq_dot_iff d).mpr hd
  have hs : dot <+: render s ↔ (render s).head? = some '.' := by
    cases render s <;> simp [dot, List.cons_prefix_cons, eq_comm]
  rw [isBelow_dot_iff hd, EndsAtComponent, if_neg (by rw [hrender]; decide), if_pos hrender,
    hrender, hs, Ne, render_eq_dot_iff, isRooted_render]
  cases hroot : s.rooted with
  | true => simp [render, hroot]
  | false =>
      by_cases hparts : parts s = []
      · have hempty : render s = dot := (render_eq_dot_iff s).mpr ⟨hroot, hparts⟩
        have hfirst : firstComponent dot ≠ some dotdot := by decide
        have hhead : List.head? dot = some '.' := rfl
        simp [hparts, hempty, hfirst, hhead]
      · by_cases hfirst : firstComponent (render s) = some dotdot
        · simp [hparts, hfirst, head?_render_of_climb hroot hparts hfirst]
        · simp [hparts, hfirst]

/-- Comparing against a path with components: what follows it has to start
with a slash, and with a name after that. -/
theorem agree_parts (hd : parts d ≠ []) :
    ((render s ≠ render d ∧ render d <+: render s) ↔ IsBelow (render s) (render d)) ↔
      EndsAtComponent (render s) (render d) := by
  have hslash : render d ≠ ['/'] := fun h => hd ((render_eq_slash_iff d).mp h).2
  have hdot : render d ≠ dot := fun h => hd ((render_eq_dot_iff d).mp h).2
  rw [EndsAtComponent, if_neg hslash, if_neg hdot]
  constructor
  · intro hagree hpre
    refine or_iff_not_imp_left.mpr (fun hne => ?_)
    obtain ⟨rest, hrest, hfirst⟩ := exists_slash_of_isBelow hd (hagree.mp ⟨hne, hpre⟩)
    have hdrop : (render s).drop (render d).length = '/' :: rest := by
      rw [hrest, List.drop_left]
    rw [hdrop]
    exact ⟨rfl, by simpa [firstComponent] using hfirst⟩
  · intro hends
    constructor
    · rintro ⟨hne, hpre⟩
      obtain ⟨hhead, hfirst⟩ := (hends hpre).resolve_left hne
      obtain ⟨rest, hrest⟩ := List.head?_eq_some_iff.mp hhead
      obtain ⟨tail, htail⟩ := hpre
      rw [← htail, List.drop_left] at hrest hfirst
      subst hrest
      exact isBelow_of_slash hd htail.symm (by simpa [firstComponent] using hfirst)
    · intro hbelow
      obtain ⟨rest, hrest, _⟩ := exists_slash_of_isBelow hd hbelow
      refine ⟨fun h => ?_, ⟨_, hrest.symm⟩⟩
      have hlen := congrArg List.length (h.symm.trans hrest)
      simp at hlen

/-- The string comparison of two normal forms is containment exactly when it
ends at a component boundary. -/
theorem prefix_iff_isBelow_iff :
    ((render s ≠ render d ∧ render d <+: render s) ↔ IsBelow (render s) (render d)) ↔
      EndsAtComponent (render s) (render d) := by
  by_cases hparts : parts d = []
  · cases hroot : d.rooted with
    | true => exact agree_slash ⟨hroot, hparts⟩
    | false => exact agree_dot ⟨hroot, hparts⟩
  · exact agree_parts hparts

end Render

/-- On two nonempty paths `is_subdir` is containment of directories, and
`is_prefix` is that or equality, exactly when the comparison of the two normal
forms ends at a component boundary. -/
theorem isSubdir_isPrefix_componentwise_iff {s d : Str} (hs : s ≠ []) (hd : d ≠ []) :
    ((isSubdir .posix s d = true ↔ IsBelow (normal .posix s) (normal .posix d)) ∧
        (isPrefix .posix d s = true ↔
          normal .posix d = normal .posix s ∨ IsBelow (normal .posix s) (normal .posix d))) ↔
      EndsAtComponent (normal .posix s) (normal .posix d) := by
  rw [isSubdir_iff hs hd, isPrefix_iff hd hs]
  simp only [normal_eq_render]
  rw [← prefix_iff_isBelow_iff]
  constructor
  · exact And.left
  · intro hagree
    refine ⟨hagree, ?_, ?_⟩
    · intro hpre
      exact or_iff_not_imp_left.mpr (fun hne => hagree.mp ⟨Ne.symm hne, hpre⟩)
    · rintro (heq | hbelow)
      · exact heq ▸ List.prefix_rfl
      · exact (hagree.mpr hbelow).2

theorem isSubdir_isPrefix_componentwise_iff_at :
    ((isSubdir .posix "a/b/c".toList "a/b".toList = true ↔
          IsBelow (normal .posix "a/b/c".toList) (normal .posix "a/b".toList)) ∧
        (isPrefix .posix "a/b".toList "a/b/c".toList = true ↔
          normal .posix "a/b".toList = normal .posix "a/b/c".toList ∨
            IsBelow (normal .posix "a/b/c".toList) (normal .posix "a/b".toList))) ↔
      EndsAtComponent (normal .posix "a/b/c".toList) (normal .posix "a/b".toList) :=
  isSubdir_isPrefix_componentwise_iff (by decide) (by decide)

/-- A sibling whose name extends the directory's own name counts as inside. -/
theorem isSubdir_sibling :
    ¬ (isSubdir .posix "a/bc".toList "a/b".toList = true ↔
      IsBelow (normal .posix "a/bc".toList) (normal .posix "a/b".toList)) := by
  rw [isSubdir_iff (by decide) (by decide)]
  simp only [normal_eq_render]
  decide

end Ffilesystem
