import Ffilesystem.Library.Ends
import Ffilesystem.Parent
import Ffilesystem.Pure

/-!
# File names, stems and suffixes in the C backend

The file name is read from the back, as what follows the last separator; the
root is read from the front by position. The two scans do not know of each
other, so a drive that no separator follows is found by both.
-/

namespace Ffilesystem

variable (pl : Platform)

def fileName (path : Str) : Str := path.rtakeWhile (fun c => !pl.isFileSeparator c)

def hasFilename (path : Str) : Bool := !(fileName pl path).isEmpty

def stem (path : Str) : Str :=
  let r := fileName pl path
  if r = dotdot then r
  else match Scan.rfind r '.' with
    | some i => if i ≠ 0 then r.take i else r
    | none => r

def suffix (path : Str) : Str :=
  let p := fileName pl path
  match Scan.rfind p '.' with
  | some i => if i ≠ 0 then p.drop i else []
  | none => []

/-- `with_suffix` on POSIX systems. -/
def withSuffix (path newSuffix : Str) : Str :=
  let s := stem .posix path
  if s.isEmpty then join .posix path newSuffix
  else
    let p := parent .c path
    let r := if p = dot then s
      else (if p.getLast? ≠ some '/' then p ++ ['/'] else p) ++ s
    r ++ newSuffix

/-- A stem is cut behind the first character at the earliest. -/
theorem stem_eq_nil_iff (path : Str) : stem pl path = [] ↔ fileName pl path = [] := by
  simp only [stem]
  split
  · rfl
  · split
    · split
      · rename_i i hfind hzero
        rw [List.take_eq_nil_iff, or_iff_right hzero]
      · rfl
    · rfl

theorem fileName_eq_nil_iff (path : Str) :
    fileName .posix path = [] ↔ path = [] ∨ path.getLast? = some '/' := by
  rw [fileName, List.rtakeWhile_eq_nil_iff]
  by_cases h : path = []
  · simp [h]
  · simp [h, List.getLast?_eq_getLast_of_ne_nil h]

/-- Only what holds the last separator matters to the file name. -/
theorem fileName_append_of_any {b : Str} (h : b.any pl.isFileSeparator) (a : Str) :
    fileName pl (a ++ b) = fileName pl b := by
  obtain ⟨c, hmem, hc⟩ := List.any_eq_true.mp h
  exact Ends.rtakeWhile_append_of_mem hmem (by rw [hc]; rfl) a

theorem fileName_append_of_not_any {b : Str} (h : ¬ b.any pl.isFileSeparator) (a : Str) :
    fileName pl (a ++ b) = fileName pl a ++ b := by
  refine Ends.rtakeWhile_append_of_all (fun c hc => ?_) a
  rw [Bool.not_eq_true']
  exact Bool.eq_false_iff.mpr (fun hsep => h (List.any_eq_true.mpr ⟨c, hc, hsep⟩))

/-- A separator in front is no part of the file name. -/
theorem fileName_cons {c : Char} (hc : pl.isFileSeparator c) (rest : Str) :
    fileName pl (c :: rest) = fileName pl rest := by
  by_cases h : rest.any pl.isFileSeparator
  · exact fileName_append_of_any pl h [c]
  · have hsep : fileName pl [c] = [] := by simp [fileName, List.rtakeWhile, hc]
    exact (fileName_append_of_not_any pl h [c]).trans
      (by rw [hsep]; exact (fileName_append_of_not_any pl h []).symm)

theorem fileName_suffix (path : Str) : fileName pl path <:+ path :=
  List.rtakeWhile_suffix _ _

theorem root_isPrefix (path : Str) : root pl path <+: path := by
  have hcut := rootName_append_drop pl path
  rw [root, rootDirectory_eq]
  conv_rhs => rw [← hcut]
  rw [List.prefix_append_right_inj]
  cases path.drop (rootName pl path).length with
  | nil => exact List.nil_prefix
  | cons c rest =>
      rw [List.head?_cons]
      cases hc : pl.isFileSeparator c with
      | true => exact ⟨rest, by simp [Option.filter, hc]⟩
      | false => exact ⟨c :: rest, by simp [Option.filter, hc]⟩

theorem length_head_add_length_fileName_le (rest : Str) :
    ((rest.head?.filter pl.isFileSeparator).toList).length + (fileName pl rest).length ≤
      rest.length := by
  cases rest with
  | nil => simp [fileName]
  | cons c rest =>
      rw [List.head?_cons]
      cases hc : pl.isFileSeparator c with
      | false =>
          have hlen := (fileName_suffix pl (c :: rest)).length_le
          simpa [Option.filter, hc] using hlen
      | true =>
          have hlen := (fileName_suffix pl rest).length_le
          rw [fileName_cons pl hc, Option.filter_some, if_pos hc, Option.toList_some,
            List.length_singleton, List.length_cons]
          omega

/-- A drive that no separator follows counts in both lengths. -/
theorem length_root_add_length_fileName_le_iff (path : Str) :
    (root pl path).length + (fileName pl path).length ≤ path.length ↔
      ¬ (pl.isWindows ∧ path[1]? = some ':') ∨ (path.drop 2).any pl.isFileSeparator := by
  have hhead := length_head_add_length_fileName_le pl
    (path.drop (rootName pl path).length)
  have hcut := congrArg List.length (rootName_append_drop pl path)
  rw [root, rootDirectory_eq, List.length_append]
  rw [List.length_append] at hcut
  obtain ⟨hwin, hcolon, hname, hlen⟩ | ⟨hnot, hname⟩ := rootName_cases pl path
  · have hne : rootName pl path ≠ [] := by
      intro hnil
      rw [hnil] at hlen
      exact absurd hlen (by decide)
    rw [or_iff_right (not_not.mpr ⟨hwin, hcolon⟩)]
    rw [hlen] at hhead hcut ⊢
    have hpath : path.take 2 ++ path.drop 2 = path := List.take_append_drop 2 path
    by_cases hsep : (path.drop 2).any pl.isFileSeparator
    · have hfile : fileName pl path = fileName pl (path.drop 2) := by
        conv_lhs => rw [← hpath]
        exact fileName_append_of_any pl hsep _
      rw [hfile]
      exact iff_of_true (by omega) hsep
    · -- the drive is part of the file name
      have hfile : fileName pl path = fileName pl (path.take 2) ++ path.drop 2 := by
        conv_lhs => rw [← hpath]
        exact fileName_append_of_not_any pl hsep _
      have hdrive : fileName pl (path.take 2) ≠ [] := by
        rw [← hname, fileName, ne_eq, List.rtakeWhile_eq_nil_iff]
        intro hall
        have hlast := getLast?_rootName pl path
        rw [List.getLast?_eq_getLast_of_ne_nil hne] at hlast
        exact hall hne (by simpa using hlast)
      have hpos := List.length_pos_iff.mpr hdrive
      rw [hfile, List.length_append]
      exact iff_of_false (by omega) hsep
  · rw [hname, List.length_nil, List.drop_zero] at hhead
    rw [hname, List.length_nil, List.drop_zero]
    exact iff_of_true (by omega) (.inl hnot)

/-- The root and the file name of a path do not overlap, unless there is a drive
and no separator after it. -/
theorem root_fileName_disjoint_iff (path : Str) :
    (root pl path <+: path ∧ fileName pl path <:+ path ∧
        (root pl path).length + (fileName pl path).length ≤ path.length ∧
        ∃ middle, path = root pl path ++ middle ++ fileName pl path) ↔
      ¬ (pl.isWindows ∧ path[1]? = some ':') ∨ (path.drop 2).any pl.isFileSeparator := by
  rw [← length_root_add_length_fileName_le_iff]
  constructor
  · exact fun h => h.2.2.1
  · exact fun h => ⟨root_isPrefix pl path, fileName_suffix pl path, h,
      Ends.exists_middle (root_isPrefix pl path) (fileName_suffix pl path) h⟩

/-- The drive of `"c:foo"` is part of its file name. -/
theorem root_fileName_overlap_of_drive :
    ¬ ∀ (pl : Platform) (path : Str), DrivePath pl path →
      root pl path <+: path ∧ fileName pl path <:+ path ∧
        (root pl path).length + (fileName pl path).length ≤ path.length ∧
        ∃ middle, path = root pl path ++ middle ++ fileName pl path := by
  intro h
  exact absurd (h .windows "c:foo".toList (by decide)).2.2.1 (by decide)

section Split

variable {pl} {path : Str}

/-- The part of a path in front of its file name. -/
def directoryPart (pl : Platform) (path : Str) : Str :=
  path.rdropWhile (fun c => !pl.isFileSeparator c)

theorem directoryPart_append_fileName (pl : Platform) (path : Str) :
    directoryPart pl path ++ fileName pl path = path :=
  List.rdropWhile_append_rtakeWhile

theorem isFileSeparator_of_mem_fileName {c : Char} (h : c ∈ fileName pl path) :
    pl.isFileSeparator c = false := by
  simpa using List.mem_rtakeWhile_imp h

theorem directoryPart_cases (pl : Platform) (path : Str) :
    directoryPart pl path = [] ∨
      ∃ front c, pl.isFileSeparator c = true ∧ directoryPart pl path = front ++ [c] := by
  by_cases h : path.rdropWhile (fun c => !pl.isFileSeparator c) = []
  · exact .inl h
  · have hlast := List.rdropWhile_last_not _ path h
    exact .inr ⟨_, _, by simpa using hlast, (List.dropLast_append_getLast h).symm⟩

/-- What follows a separator, and has none in it, is the file name. -/
theorem fileName_append_cons {front name : Str} {c : Char} (hc : pl.isFileSeparator c = true)
    (hname : ¬ name.any pl.isFileSeparator) : fileName pl (front ++ c :: name) = name := by
  have hsep : fileName pl (front ++ [c]) = [] := by
    rw [fileName, List.rtakeWhile_concat_neg]
    simp [hc]
  rw [List.append_cons, fileName_append_of_not_any pl hname, hsep, List.nil_append]

theorem fileName_of_not_any {name : Str} (hname : ¬ name.any pl.isFileSeparator) :
    fileName pl name = name :=
  fileName_append_of_not_any pl hname []

/-- The last component of a path is two dots. -/
def EndsInDotdot (pl : Platform) (path : Str) : Prop :=
  path = dotdot ∨ ∃ front c, pl.isFileSeparator c = true ∧ path = front ++ c :: dotdot

theorem fileName_eq_dotdot_iff : fileName pl path = dotdot ↔ EndsInDotdot pl path := by
  have hdots : ¬ dotdot.any pl.isFileSeparator := by cases pl <;> decide
  constructor
  · intro h
    have hcut := directoryPart_append_fileName pl path
    rw [h] at hcut
    obtain hnil | ⟨front, c, hc, hfront⟩ := directoryPart_cases pl path
    · rw [hnil] at hcut
      exact .inl hcut.symm
    · rw [hfront, List.append_assoc] at hcut
      exact .inr ⟨front, c, hc, hcut.symm⟩
  · rintro (rfl | ⟨front, c, hc, rfl⟩)
    · exact fileName_of_not_any hdots
    · exact fileName_append_cons hc hdots

theorem stem_of_dotdot (h : fileName pl path = dotdot) : stem pl path = dotdot := by
  rw [stem, h]
  rfl

/-- The last dot cuts the file name in two. -/
theorem stem_of_dot {front ext : Str} (h : fileName pl path = front ++ '.' :: ext)
    (hfront : front ≠ []) (hext : '.' ∉ ext) (hdots : fileName pl path ≠ dotdot) :
    stem pl path = front := by
  have hlen : front.length ≠ 0 := fun hzero => hfront (List.length_eq_zero_iff.mp hzero)
  rw [stem, if_neg hdots, h, Scan.rfind_append_cons front hext]
  dsimp only
  rw [if_pos hlen, List.take_left]

theorem suffix_of_dot {front ext : Str} (h : fileName pl path = front ++ '.' :: ext)
    (hfront : front ≠ []) (hext : '.' ∉ ext) : suffix pl path = '.' :: ext := by
  have hlen : front.length ≠ 0 := fun hzero => hfront (List.length_eq_zero_iff.mp hzero)
  rw [suffix, h, Scan.rfind_append_cons front hext]
  dsimp only
  rw [if_pos hlen, List.drop_left]

/-- Without a dot behind its first character a file name is all stem. -/
theorem stem_suffix_of_no_dot (h : '.' ∉ (fileName pl path).tail) :
    stem pl path = fileName pl path ∧ suffix pl path = [] := by
  rw [stem, suffix]
  cases hname : fileName pl path with
  | nil => exact ⟨rfl, rfl⟩
  | cons c rest =>
      rw [hname, List.tail_cons] at h
      have hdots : c :: rest ≠ dotdot := by
        intro heq
        rw [(List.cons.inj heq).2] at h
        exact h (by decide)
      rw [if_neg hdots]
      by_cases hc : c = '.'
      · have hfind : Scan.rfind (c :: rest) '.' = some 0 := by
          rw [hc]
          exact Scan.rfind_append_cons [] h
        rw [hfind]
        exact ⟨rfl, rfl⟩
      · have hfind : Scan.rfind (c :: rest) '.' = none := by
          rw [Scan.rfind_eq_none_iff, List.mem_cons, not_or]
          exact ⟨fun heq => hc heq.symm, h⟩
        rw [hfind]
        exact ⟨rfl, rfl⟩

theorem exists_dot_of_mem_tail {name : Str} (h : '.' ∈ name.tail) :
    ∃ front ext, name = front ++ '.' :: ext ∧ front ≠ [] ∧ '.' ∉ ext := by
  obtain ⟨front, ext, hcut, hext⟩ := Scan.exists_last_of_mem (List.mem_of_mem_tail h)
  refine ⟨front, ext, hcut, ?_, hext⟩
  rintro rfl
  rw [hcut] at h
  exact hext h

/-- The stem and the suffix make up the file name, the suffix is empty or what the
last dot starts, and only a missing file name has no stem. -/
structure SplitsName (pl : Platform) (path : Str) : Prop where
  append : stem pl path ++ suffix pl path = fileName pl path
  suffix : suffix pl path = [] ∨ ∃ ext, suffix pl path = '.' :: ext ∧ '.' ∉ ext
  stem : stem pl path = [] → fileName pl path = []

/-- Only two dots alone are in the stem and in the suffix at once. -/
theorem splitsName_iff (pl : Platform) (path : Str) :
    SplitsName pl path ↔ ¬ EndsInDotdot pl path := by
  by_cases hdot : '.' ∈ (fileName pl path).tail
  · obtain ⟨front, ext, hcut, hfront, hext⟩ := exists_dot_of_mem_tail hdot
    have hsuffix := suffix_of_dot hcut hfront hext
    rw [← fileName_eq_dotdot_iff]
    by_cases hdots : fileName pl path = dotdot
    · refine iff_of_false (fun h => ?_) (not_not.mpr hdots)
      have happend := h.append
      rw [stem_of_dotdot hdots, hsuffix, hdots] at happend
      exact absurd (congrArg List.length happend) (by simp)
    · refine iff_of_true ⟨?_, .inr ⟨ext, hsuffix, hext⟩, (stem_eq_nil_iff pl path).mp⟩ hdots
      rw [stem_of_dot hcut hfront hext hdots, hsuffix, hcut]
  · obtain ⟨hstem, hsuffix⟩ := stem_suffix_of_no_dot hdot
    refine iff_of_true ⟨?_, .inl hsuffix, (stem_eq_nil_iff pl path).mp⟩ ?_
    · rw [hstem, hsuffix, List.append_nil]
    · rw [← fileName_eq_dotdot_iff]
      intro hdots
      rw [hdots] at hdot
      exact hdot (by decide)

/-- For `".."` the suffix is `"."`. -/
theorem not_splitsName_dotdot : ¬ ∀ (pl : Platform) (path : Str), SplitsName pl path := by
  intro h
  exact absurd (h .posix "a/..".toList).append (by decide)

end Split

end Ffilesystem
