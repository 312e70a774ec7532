import Ffilesystem.Canonical

/-!
# The way from one path to another

`relative_to` is `std::filesystem::relative`: both paths are made weakly canonical,
and the one is then written relative to the other, component by component. The C
backend has no such function and gives an empty path.

From a directory to anything that is there, each result leads there for a process
that has changed to the directory (`relativeTo_leads`).
-/

namespace Ffilesystem

open FileTree Lexical

/-- How far up the rest of the base leads. -/
def ascent (b : List Str) : Int :=
  (b.filter fun s => s ≠ [] ∧ s ≠ dot ∧ s ≠ dotdot).length - b.count dotdot

/-- The relative path from what only the base has, `above`, to what only the other
path has. -/
def backAndForth (rest above : List Str) : Str :=
  if rest = [] ∧ above = [] then dot
  else if ascent above < 0 then []
  else if ascent above = 0 ∧ rest.head?.getD [] = [] then dot
  else (List.replicate (ascent above).toNat dotdot ++ rest).foldl stdJoin []

/-- `std::filesystem::path::lexically_relative`. -/
def lexicallyRelative (p base : Str) : Str :=
  if isRooted p ≠ isRooted base then []
  else
    backAndForth (mismatch (elements p) (elements base)).1
      (mismatch (elements p) (elements base)).2

/-- `std::filesystem::path::lexically_proximate`. -/
def lexicallyProximate (p base : Str) : Str :=
  if lexicallyRelative p base = [] then p else lexicallyRelative p base

/-- `r` is a result of a comparison of the two paths made weakly canonical. An error
in either gives an empty path, as the C backend always does. -/
def Compared (compare : Str → Str → Str) (b : Backend) (sys : System) (base other r : Str) :
    Prop :=
  match b with
  | .c => r = []
  | .cxxFilesystem =>
      if base = [] ∧ other = [] then r = []
      else
        (∃ p q, WeaklyCanonical sys other p ∧ WeaklyCanonical sys base q ∧ r = compare p q) ∨
          ((∀ p, ¬ WeaklyCanonical sys other p) ∨ ∀ q, ¬ WeaklyCanonical sys base q) ∧ r = []

/-- `r` is a result of `relative_to`. -/
def RelativeTo : Backend → System → Str → Str → Str → Prop := Compared lexicallyRelative

/-- `r` is a result of `proximate_to`. -/
def ProximateTo : Backend → System → Str → Str → Str → Prop := Compared lexicallyProximate

section Lexical

variable {p base : Str} {S R : List Name}

theorem ascent_names (names : List Name) : ascent (names.map Subtype.val) = names.length := by
  have hkeep : (names.map Subtype.val).filter (fun s => s ≠ [] ∧ s ≠ dot ∧ s ≠ dotdot) =
      names.map Subtype.val := by
    refine List.filter_eq_self.mpr fun s hs => ?_
    obtain ⟨name, -, rfl⟩ := List.mem_map.mp hs
    exact decide_eq_true ⟨name.2.1, name.2.2.1, name.2.2.2.1⟩
  have hdots : (names.map Subtype.val).count dotdot = 0 := by
    refine List.count_eq_zero.mpr fun hmem => ?_
    obtain ⟨name, -, heq⟩ := List.mem_map.mp hmem
    exact name.2.2.2.1 heq
  rw [ascent, hkeep, hdots, List.length_map]
  exact Int.sub_zero _

/-- Components are put together with one separator between them. -/
theorem foldl_stdJoin {pieces : List Str} (h : ∀ piece ∈ pieces, piece ≠ [] ∧ '/' ∉ piece) :
    pieces.foldl stdJoin [] = ['/'].intercalate pieces := by
  induction pieces using List.reverseRecOn with
  | nil => rfl
  | append_singleton pieces piece ih =>
      have hfront : ∀ x ∈ pieces, x ≠ [] ∧ '/' ∉ x := fun x hx => h x (List.mem_append_left _ hx)
      obtain ⟨hne, hfree⟩ := h piece (List.mem_append_right _ List.mem_cons_self)
      have hhead : ¬ piece.head? = some '/' := fun hslash => hfree (List.mem_of_head? hslash)
      rw [List.foldl_append, List.foldl_cons, List.foldl_nil, ih hfront, stdJoin, if_neg hhead]
      by_cases hnil : pieces = []
      · subst hnil
        simp [List.intercalate]
      · have hjoin : ['/'].intercalate pieces ≠ [] := by
          intro heq
          have hback := Scan.components_intercalate hfront
          rw [heq, Scan.components_nil] at hback
          exact hnil hback.symm
        have hlast := Scan.getLast?_intercalate_ne hfront
        rw [if_pos (by simp [hjoin, hlast]), Scan.intercalate_append hnil (List.cons_ne_nil _ _)]
        simp [List.intercalate]

theorem render_between (R S : List Name) : render (Place.between R S) =
    if parts (Place.between R S) = [] then dot else ['/'].intercalate (parts (Place.between R S)) :=
  if_neg Bool.false_ne_true

theorem parts_between (R S : List Name) : parts (Place.between R S) =
    List.replicate (mismatch S R).2.length dotdot ++ (mismatch S R).1.map Subtype.val :=
  parts_eq _

/-- A separator comes behind the last component. -/
theorem stdJoin_intercalate_nil {m : Place Name} (h : parts m ≠ []) :
    stdJoin (['/'].intercalate (parts m)) [] = ['/'].intercalate (parts m) ++ ['/'] := by
  have hne := intercalate_parts_ne_nil h
  have hlast := Scan.getLast?_intercalate_ne (parts_ok m)
  rw [stdJoin, if_neg (by simp), if_pos (by simp [hne, hlast])]

/-- Where the elements of two canonical paths part, their names do. A slash at the end
of the first path is one element more. -/
theorem mismatch_elements (hp : Spelled p S) (hbase : Spelled base R)
    (hlast : base.getLast? ≠ some '/' ∨ R = []) :
    ∃ ptail, (ptail = [] ∨ ptail = [[]] ∧ p.getLast? = some '/' ∧ S ≠ []) ∧
      mismatch (elements p) (elements base) =
        ((mismatch S R).1.map Subtype.val ++ ptail, (mismatch S R).2.map Subtype.val) := by
  obtain ⟨ptail, hptail, hpel⟩ := elements_of_spelled hp
  obtain ⟨btail, hbtail, hbel⟩ := elements_of_spelled hbase
  obtain rfl : btail = [] := by
    rcases hbtail with rfl | ⟨-, hslash, hne⟩
    · rfl
    · exact (hlast.elim (· hslash) hne).elim
  have hmap := mismatch_map Subtype.val_injective S R
  have hfree : ([] : Str) ∉ R.map Subtype.val := by
    intro hmem
    obtain ⟨name, -, hname⟩ := List.mem_map.mp hmem
    exact name.2.1 hname
  refine ⟨ptail, hptail, ?_⟩
  rw [hpel, hbel, mismatch_cons_self, List.append_nil]
  rcases hptail with rfl | ⟨rfl, -⟩
  · rw [List.append_nil, List.append_nil, hmap]
  · rw [mismatch_concat hfree, hmap]

/-- Of two rooted paths without dots, the one relative to the other is the way
between their places, in normal form but for a separator at the end. -/
theorem lexicallyRelative_of_spelled (hp : Spelled p S) (hbase : Spelled base R)
    (hlast : base.getLast? ≠ some '/' ∨ R = []) :
    ∃ tail, (tail = [] ∨ tail = ['/'] ∧ p.getLast? = some '/' ∧ S ≠ []) ∧
      lexicallyRelative p base = render (Place.between R S) ++ tail := by
  obtain ⟨ptail, hptail, hrest⟩ := mismatch_elements hp hbase hlast
  have hroots : ¬ isRooted p ≠ isRooted base := fun hne => hne (hp.1.trans hbase.1.symm)
  rw [lexicallyRelative, if_neg hroots, hrest, backAndForth, ascent_names, render_between]
  by_cases hsame : parts (Place.between R S) = []
  · -- both lead to the same place
    obtain ⟨hnone, hnil⟩ := List.append_eq_nil_iff.mp (parts_between R S ▸ hsame)
    have hup : (mismatch S R).2 = [] := by simpa using hnone
    rw [if_pos hsame, hnil, hup]
    refine ⟨[], .inl rfl, ?_⟩
    rcases hptail with rfl | ⟨rfl, -⟩
    · rfl
    · rfl
  · have hway : (mismatch S R).1 = [] → (mismatch S R).2 ≠ [] := by
      intro hdown hup
      rw [parts_between, hdown, hup] at hsame
      exact hsame rfl
    have hmoves : ¬ (((mismatch S R).2.length : Int) = 0 ∧
        ((mismatch S R).1.map Subtype.val ++ ptail).head?.getD [] = []) := by
      rintro ⟨hzero, hhead⟩
      have hup : (mismatch S R).2 = [] := List.length_eq_zero_iff.mp (Int.ofNat_eq_zero.mp hzero)
      cases hdown : (mismatch S R).1 with
      | nil => exact hway hdown hup
      | cons name names =>
          rw [hdown] at hhead
          exact name.2.1 hhead
    have hboth : ¬ ((mismatch S R).1.map Subtype.val ++ ptail = [] ∧
        (mismatch S R).2.map Subtype.val = []) := by
      rintro ⟨hdown, hup⟩
      exact hway (List.map_eq_nil_iff.mp (List.append_eq_nil_iff.mp hdown).1)
        (List.map_eq_nil_iff.mp hup)
    rw [if_neg hsame, if_neg hboth, if_neg (by omega), if_neg hmoves, Int.toNat_natCast,
      ← List.append_assoc, ← parts_between, List.foldl_append, foldl_stdJoin (parts_ok _)]
    rcases hptail with rfl | ⟨rfl, hp'⟩
    · exact ⟨[], .inl rfl, (List.append_nil _).symm⟩
    · exact ⟨['/'], .inr ⟨rfl, hp'⟩, stdJoin_intercalate_nil hsame⟩

/-- The join of the base and the way from it to a path has the normal form of the path. -/
theorem normal_join_lexicallyRelative (hp : Spelled p S) (hbase : Spelled base R)
    (hlast : base.getLast? ≠ some '/' ∨ R = []) (b : Backend) :
    lexicallyRelative p base ≠ [] ∧
      normal .posix (joinOf b base (lexicallyRelative p base)) = normal .posix p := by
  obtain ⟨tail, htail, hr⟩ := lexicallyRelative_of_spelled hp hbase hlast
  have hplace : place (lexicallyRelative p base) = Place.between R S := by
    rw [hr]
    rcases htail with rfl | ⟨rfl, -⟩
    · rw [List.append_nil, place_render]
    · rw [place_append_slash (render_ne_nil _), movesOf, Scan.components_nil]
      exact place_render _
  have hroot : isRooted (lexicallyRelative p base) = false := by
    rw [← place_rooted, hplace]
    rfl
  refine ⟨?_, ?_⟩
  · rw [hr]
    exact List.append_ne_nil_of_left_ne_nil (render_ne_nil _) _
  · rw [normal_eq_normal_iff, place_joinOf, hroot, if_neg Bool.false_ne_true,
      walk_movesOf hroot, hplace, place_of_spelled hp, place_of_spelled hbase,
      Place.walk_between]

end Lexical

section Systems

variable {sys : System} {base other p r : Str} {R : List FileName}

/-- What the comparison with a directory starts from. -/
theorem compared_of_stat {compare : Str → Str → Str} (hbase : sys.stat base = .ok (.dir R))
    (h : Compared compare .cxxFilesystem sys base other r) :
    (∀ p, ¬ WeaklyCanonical sys other p) ∧ r = [] ∨
      ∃ p, WeaklyCanonical sys other p ∧ r = compare p (absString R) := by
  have hne : ¬ (base = [] ∧ other = []) := by
    rintro ⟨rfl, -⟩
    exact (System.stat_eq_ok hbase).1 rfl
  rw [Compared, if_neg hne] at h
  rcases h with ⟨p, q, hp, hq, hr⟩ | ⟨hnone | hnone, hr⟩
  · rw [(weaklyCanonical_of_stat hbase).mp hq] at hr
    exact .inr ⟨p, hp, hr⟩
  · exact .inl ⟨hnone, hr⟩
  · exact absurd ((weaklyCanonical_of_stat hbase).mpr rfl) (hnone (absString R))

/-- From a directory the result leads to the other path: the join of the canonical
directory and the result has the normal form of the other path made weakly
canonical. When that is still a relative path, `relative_to` gives nothing and
`proximate_to` gives it back. -/
theorem relativeTo_join (hbase : sys.stat base = .ok (.dir R)) (other : Str) (b : Backend) :
    (∀ r, RelativeTo .cxxFilesystem sys base other r →
      (∀ p, ¬ WeaklyCanonical sys other p) ∧ r = [] ∨
        ∃ p, WeaklyCanonical sys other p ∧
          if isRooted p then
            r ≠ [] ∧ normal .posix (joinOf b (canonical sys base true) r) = normal .posix p
          else r = []) ∧
    ∀ r, ProximateTo .cxxFilesystem sys base other r →
      (∀ p, ¬ WeaklyCanonical sys other p) ∧ r = [] ∨
        ∃ p, WeaklyCanonical sys other p ∧
          if isRooted p then
            normal .posix (joinOf b (canonical sys base true) r) = normal .posix p
          else r = p := by
  have hdir : canonical sys base true = absString R := canonical_of_stat hbase true
  have hrelative : ∀ p, isRooted p = false → lexicallyRelative p (absString R) = [] := by
    intro p hroot
    exact if_pos (by rw [hroot]; exact Bool.false_ne_true)
  have hjoin : ∀ p, WeaklyCanonical sys other p → isRooted p = true →
      lexicallyRelative p (absString R) ≠ [] ∧
        normal .posix (joinOf b (absString R) (lexicallyRelative p (absString R))) =
          normal .posix p := by
    intro p hp hroot
    obtain ⟨S, hS⟩ := exists_spelled_of_weaklyCanonical hp hroot
    exact normal_join_lexicallyRelative hS (spelled_absString R) (getLast?_absString R) b
  rw [hdir]
  refine ⟨fun r hr => ?_, fun r hr => ?_⟩
  · refine (compared_of_stat hbase hr).imp_right ?_
    rintro ⟨p, hp, rfl⟩
    refine ⟨p, hp, ?_⟩
    cases hroot : isRooted p with
    | true => exact hjoin p hp hroot
    | false => exact hrelative p hroot
  · refine (compared_of_stat hbase hr).imp_right ?_
    rintro ⟨p, hp, rfl⟩
    refine ⟨p, hp, ?_⟩
    rw [lexicallyProximate]
    cases hroot : isRooted p with
    | true =>
        rw [if_neg (hjoin p hp hroot).1]
        exact (hjoin p hp hroot).2
    | false => exact if_pos (hrelative p hroot)

theorem stat_linkedDir_l : linkedDir.stat "l".toList = .ok (.dir [⟨['d'], isFileName_d⟩]) := by
  decide +kernel

theorem relativeTo_linkedDir_l :
    RelativeTo .cxxFilesystem linkedDir "l".toList dot "..".toList :=
  .inl ⟨_, _, (weaklyCanonical_of_stat (stat_dot linkedDir)).mpr rfl,
    (weaklyCanonical_of_stat stat_linkedDir_l).mpr rfl, by decide +kernel⟩

theorem relativeTo_join_linkedDir :
    normal .posix (joinOf .c (canonical linkedDir "l".toList true) "..".toList) =
      normal .posix ['/'] := by
  rcases (relativeTo_join stat_linkedDir_l dot .c).1 _ relativeTo_linkedDir_l with
    ⟨hnone, -⟩ | ⟨p, hp, hway⟩
  · exact absurd ((weaklyCanonical_of_stat (stat_dot linkedDir)).mpr rfl) (hnone _)
  · rw [(weaklyCanonical_of_stat (stat_dot linkedDir)).mp hp] at hway
    exact hway.2

end Systems

end Ffilesystem
