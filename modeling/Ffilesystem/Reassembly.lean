import Ffilesystem.FileName
import Ffilesystem.Join

/-!
# Paths that are put together again

`parent` and `file_name` take a path apart, `join` and `with_suffix` write one
from such parts. The text in front of the file name is empty or ends in a slash;
`dirname` returns it without the slashes at its end, unless it is all slashes.

`dirname` reads a C string. It sees the text in front of the file name where no
null character is in it and none starts the file name. Joins of the parts then
mean what the path means, and else where the two texts lead alike. `with_suffix`
writes the parts with one slash and no `"./"`, where `replace_extension` leaves the
text in front as it is.
-/

namespace Ffilesystem

open Lexical

section Dirname

/-- Text that can stand in front of a file name. -/
def IsFront (front : Str) : Prop := front = [] ∨ ∃ text, front = text ++ ['/']

/-- What `dirname` makes of the text in front of a name. -/
def dirText (front : Str) : Str :=
  if front = [] then dot
  else if front.rdropWhile (· = '/') = [] then
    if front = ['/', '/'] then front else ['/']
  else front.rdropWhile (· = '/')

/-- The text in front of a name that is written behind a directory. -/
def slashed (dir : Str) : Str :=
  if dir = dot then [] else if dir.getLast? ≠ some '/' then dir ++ ['/'] else dir

theorem dirname_eq (path : Str) :
    dirname path = dirText (upToLastSlash
      (if path.rdropWhile (· = '/') = [] then path else path.rdropWhile (· = '/'))) := rfl

theorem directoryPart_posix (path : Str) : directoryPart .posix path = upToLastSlash path := by
  have hsep : (fun c => !Platform.posix.isFileSeparator c) = fun c => decide (c ≠ '/') := by
    funext c
    simp [beq_eq_decide]
  rw [directoryPart, hsep, upToLastSlash]

theorem isFront_upToLastSlash (path : Str) : IsFront (upToLastSlash path) := by
  rw [← directoryPart_posix]
  obtain hnil | ⟨text, c, hc, htext⟩ := directoryPart_cases .posix path
  · exact .inl hnil
  · have hslash : c = '/' := by simpa using hc
    exact .inr ⟨text, hslash ▸ htext⟩

theorem upToLastSlash_append {front name : Str} (hfront : IsFront front) (hname : '/' ∉ name) :
    upToLastSlash (front ++ name) = front := by
  have hdrop : ∀ c ∈ name, (decide (c ≠ '/')) = true := by
    intro c hc
    exact decide_eq_true (fun heq => hname (heq ▸ hc))
  rw [upToLastSlash, Ends.rdropWhile_append_of_all hdrop]
  obtain rfl | ⟨text, rfl⟩ := hfront
  · rfl
  · exact List.rdropWhile_concat_neg _ _ _ (by simp)

/-- `dirname` of a name with text in front of it. -/
theorem dirname_append {front name : Str} (hfront : IsFront front) (hne : name ≠ [])
    (hname : '/' ∉ name) : dirname (front ++ name) = dirText front := by
  have hkeep : (front ++ name).rdropWhile (· = '/') = front ++ name := by
    rw [List.rdropWhile_eq_self_iff]
    intro hne' hlast
    rw [List.getLast_append_of_ne_nil _ hne] at hlast
    exact hname (of_decide_eq_true hlast ▸ List.getLast_mem hne)
  rw [dirname_eq, hkeep, ite_self, upToLastSlash_append hfront hname]

theorem isFront_slashed (dir : Str) : IsFront (slashed dir) := by
  rw [slashed]
  split
  · exact .inl rfl
  · split
    · exact .inr ⟨dir, rfl⟩
    · rename_i hlast
      rw [ne_eq, not_not] at hlast
      exact .inr ⟨_, (List.dropLast_append_getLast? _ hlast).symm⟩

/-- Text in front of a name is a directory, or nothing, and slashes behind it. -/
theorem IsFront.cases {front : Str} (h : IsFront front) :
    front = [] ∨
      ∃ dir k, front = dir ++ List.replicate (k + 1) '/' ∧ dir.getLast? ≠ some '/' := by
  obtain rfl | ⟨text, rfl⟩ := h
  · exact .inl rfl
  · right
    have hall : ∀ c ∈ text.rtakeWhile (· = '/'), c = '/' := fun c hc => by
      simpa using List.mem_rtakeWhile_imp hc
    refine ⟨text.rdropWhile (· = '/'), (text.rtakeWhile (· = '/')).length, ?_, ?_⟩
    · rw [List.replicate_succ', ← List.append_assoc, ← List.eq_replicate_of_mem hall,
        List.rdropWhile_append_rtakeWhile]
    · intro hlast
      obtain ⟨kept, hkept⟩ := List.getLast?_eq_some_iff.mp hlast
      have hne : text.rdropWhile (· = '/') ≠ [] := by simp [hkept]
      exact List.rdropWhile_last_not _ _ hne (by simp [hkept])

theorem rdropWhile_append_slashes {dir : Str} (h : dir.getLast? ≠ some '/') (k : Nat) :
    (dir ++ List.replicate k '/').rdropWhile (· = '/') = dir := by
  have hall : ∀ c ∈ List.replicate k '/', (decide (c = '/')) = true :=
    fun c hc => decide_eq_true (List.eq_of_mem_replicate hc)
  rw [Ends.rdropWhile_append_of_all hall, List.rdropWhile_eq_self_iff]
  intro hne hlast
  rw [List.getLast?_eq_getLast_of_ne_nil hne] at h
  exact h (by rw [of_decide_eq_true hlast])

@[simp] theorem dirText_nil : dirText [] = dot := rfl

theorem dirText_slashes (k : Nat) :
    dirText (List.replicate (k + 1) '/') = if k = 1 then ['/', '/'] else ['/'] := by
  have hdrop : (List.replicate (k + 1) '/').rdropWhile (· = '/') = [] := by
    have hend : ([] : Str).getLast? ≠ some '/' := by simp
    have hdrop := rdropWhile_append_slashes hend (k + 1)
    rwa [List.nil_append] at hdrop
  rw [dirText, if_neg (by simp), if_pos hdrop]
  by_cases hk : k = 1
  · rw [hk]
    rfl
  · rw [if_neg hk, if_neg]
    intro heq
    have hlen := congrArg List.length heq
    rw [List.length_replicate] at hlen
    exact hk (Nat.succ.inj hlen)

theorem dirText_of_dir {dir : Str} (hne : dir ≠ []) (h : dir.getLast? ≠ some '/') (k : Nat) :
    dirText (dir ++ List.replicate (k + 1) '/') = dir := by
  rw [dirText, rdropWhile_append_slashes h, if_neg (by simp), if_neg hne]

theorem slashed_of_dir {dir : Str} (hdot : dir ≠ dot) (h : dir.getLast? ≠ some '/') :
    slashed dir = dir ++ ['/'] := by
  rw [slashed, if_neg hdot, if_pos h]

/-- Written behind its directory again, a name has that directory. -/
theorem dirText_slashed_dirText {front : Str} (h : IsFront front) :
    dirText (slashed (dirText front)) = dirText front := by
  obtain rfl | ⟨dir, k, rfl, hlast⟩ := h.cases
  · rfl
  by_cases hne : dir = []
  · rw [hne, List.nil_append, dirText_slashes]
    split <;> decide
  · rw [dirText_of_dir hne hlast]
    by_cases hdot : dir = dot
    · rw [hdot]
      rfl
    · rw [slashed_of_dir hdot hlast]
      exact dirText_of_dir hne hlast 0

theorem length_slashed_dirText_le {front : Str} (h : IsFront front) :
    (slashed (dirText front)).length ≤ front.length := by
  obtain rfl | ⟨dir, k, rfl, hlast⟩ := h.cases
  · exact Nat.le_refl 0
  rw [List.length_append, List.length_replicate]
  by_cases hne : dir = []
  · rw [hne, List.nil_append, dirText_slashes, List.length_nil]
    split
    · rename_i hk
      rw [hk]
      decide
    · exact Nat.le_add_left 1 (0 + k)
  · rw [dirText_of_dir hne hlast]
    by_cases hdot : dir = dot
    · rw [hdot]
      exact Nat.zero_le _
    · rw [slashed_of_dir hdot hlast, List.length_append, List.length_singleton]
      omega

theorem dropLast_append_slashes (dir : Str) (k : Nat) :
    (dir ++ List.replicate (k + 1) '/').dropLast = dir ++ List.replicate k '/' := by
  rw [List.replicate_succ', ← List.append_assoc, List.dropLast_concat]

/-- Of the slashes alone, one or two are written again as they were. -/
theorem slashed_dirText_slashes_eq_iff (k : Nat) :
    slashed (dirText (List.replicate (k + 1) '/')) = List.replicate (k + 1) '/' ↔ k ≤ 1 := by
  rw [dirText_slashes]
  obtain rfl | rfl | hk : k = 0 ∨ k = 1 ∨ 2 ≤ k := by omega
  · decide
  · decide
  · rw [if_neg (by omega)]
    refine iff_of_false (fun heq => ?_) (by omega)
    have hlen := congrArg List.length heq
    have hone : (slashed ['/']).length = 1 := rfl
    rw [List.length_replicate] at hlen
    omega

/-- Behind a directory one slash is written again, and none behind the dot. -/
theorem slashed_dirText_of_dir_eq_iff {dir : Str} (hne : dir ≠ [])
    (hlast : dir.getLast? ≠ some '/') (k : Nat) :
    slashed (dirText (dir ++ List.replicate (k + 1) '/')) = dir ++ List.replicate (k + 1) '/' ↔
      dir ≠ dot ∧ k = 0 := by
  rw [dirText_of_dir hne hlast]
  by_cases hdot : dir = dot
  · subst hdot
    exact iff_of_false (fun heq => nomatch heq) (fun h => h.1 rfl)
  · rw [slashed_of_dir hdot hlast, List.append_right_inj, and_iff_right hdot]
    constructor
    · intro heq
      have hlen := congrArg List.length heq
      rw [List.length_singleton, List.length_replicate] at hlen
      omega
    · rintro rfl
      rfl

/-- The text in front of a name is written again as it was where it has one slash
at its end and is not `"./"`, or is two slashes alone. -/
theorem slashed_dirText_eq_iff {front : Str} (h : IsFront front) :
    slashed (dirText front) = front ↔
      front = ['/', '/'] ∨ (front ≠ ['.', '/'] ∧ front.dropLast.getLast? ≠ some '/') := by
  obtain rfl | ⟨dir, k, rfl, hlast⟩ := h.cases
  · exact iff_of_true rfl (.inr (by decide))
  rw [dropLast_append_slashes]
  by_cases hne : dir = []
  · have htwo : List.replicate (k + 1) '/' = ['/', '/'] ↔ k = 1 := by
      have hinj : List.replicate (k + 1) '/' = List.replicate 2 '/' ↔ _ := List.replicate_inj
      exact hinj.trans (by simp)
    have hdot : List.replicate (k + 1) '/' ≠ ['.', '/'] := by simp [List.replicate_succ]
    have hend : (List.replicate k '/').getLast? ≠ some '/' ↔ k = 0 := by
      simp [List.getLast?_replicate]
    rw [hne, List.nil_append, List.nil_append, slashed_dirText_slashes_eq_iff, htwo,
      and_iff_right hdot, hend]
    omega
  · have htwo : dir ++ List.replicate (k + 1) '/' ≠ ['/', '/'] := by
      intro heq
      have hdrop := rdropWhile_append_slashes hlast (k + 1)
      rw [heq] at hdrop
      exact hne hdrop.symm
    rw [slashed_dirText_of_dir_eq_iff hne hlast, or_iff_right htwo]
    cases k with
    | zero =>
        have hdot : dir ++ ['/'] = ['.', '/'] ↔ dir = dot :=
          ⟨fun heq => List.append_cancel_right (heq.trans (List.singleton_append).symm),
            fun heq => heq ▸ rfl⟩
        rw [List.replicate_zero, List.append_nil]
        exact and_congr (not_congr hdot.symm) (iff_of_true rfl hlast)
    | succ k =>
        have hend : (dir ++ List.replicate (k + 1) '/').getLast? = some '/' := by
          simp [List.getLast?_append, List.getLast?_replicate]
        exact iff_of_false (fun h => nomatch h.2) (fun h => h.2 hend)

theorem length_upToLastSlash_lt {path : Str} (hne : path ≠ []) (hlast : path.getLast? ≠ some '/') :
    (upToLastSlash path).length < path.length := by
  have hpre : upToLastSlash path <+: path := List.rdropWhile_prefix _ path
  refine Nat.lt_of_le_of_ne hpre.length_le (fun hlen => ?_)
  have hfront := isFront_upToLastSlash path
  rw [hpre.eq_of_length hlen] at hfront
  obtain hnil | ⟨text, htext⟩ := hfront
  · exact hne hnil
  · exact hlast (by rw [htext, List.getLast?_concat])

/-- Read as a path itself, text in front of a name gets shorter, unless it is
empty or one slash or two. -/
theorem length_slashed_dirname_lt {path : Str} (hnil : path ≠ []) (hone : path ≠ ['/'])
    (htwo : path ≠ ['/', '/']) : (slashed (dirname path)).length < path.length := by
  rw [dirname_eq]
  by_cases htrim : path.rdropWhile (· = '/') = []
  · obtain ⟨k, rfl⟩ : ∃ k, path = List.replicate (k + 2 + 1) '/' := by
      have hall := List.eq_replicate_of_mem
        (fun c hc => of_decide_eq_true (List.rdropWhile_eq_nil_iff.mp htrim c hc))
      match hlen : path.length with
      | 0 => exact absurd (List.eq_nil_of_length_eq_zero hlen) hnil
      | 1 => exact absurd (by rw [hall, hlen]; rfl) hone
      | 2 => exact absurd (by rw [hall, hlen]; rfl) htwo
      | k + 3 => exact ⟨k, by rw [hall, hlen]⟩
    have hfront : upToLastSlash (List.replicate (k + 2 + 1) '/') =
        List.replicate (k + 2 + 1) '/' := by
      have hkeep := upToLastSlash_append (.inr ⟨List.replicate (k + 2) '/', List.replicate_succ'⟩)
        (List.not_mem_nil (a := '/'))
      rwa [List.append_nil] at hkeep
    rw [if_pos htrim, hfront, dirText_slashes, if_neg (by omega), List.length_replicate]
    exact Nat.lt_add_left (k + 1) Nat.one_lt_two
  · have hcut := (List.rdropWhile_prefix (· = '/') path).length_le
    have hlast : (path.rdropWhile (· = '/')).getLast? ≠ some '/' := by
      intro hlast
      obtain ⟨kept, hkept⟩ := List.getLast?_eq_some_iff.mp hlast
      exact List.rdropWhile_last_not _ _ htrim (by simp [hkept])
    have hlt := length_upToLastSlash_lt htrim hlast
    have hle := length_slashed_dirText_le (isFront_upToLastSlash (path.rdropWhile (· = '/')))
    rw [if_neg htrim]
    omega

/-- Only no text and the roots are their own directory, as it is written. -/
theorem slashed_dirname_eq_iff (path : Str) :
    slashed (dirname path) = path ↔ path = [] ∨ path = ['/'] ∨ path = ['/', '/'] := by
  constructor
  · intro heq
    by_contra hpath
    obtain ⟨hnil, hone, htwo⟩ : path ≠ [] ∧ path ≠ ['/'] ∧ path ≠ ['/', '/'] := by
      simpa [not_or] using hpath
    have hlt := length_slashed_dirname_lt hnil hone htwo
    rw [heq] at hlt
    exact Nat.lt_irrefl _ hlt
  · rintro (rfl | rfl | rfl)
    all_goals rfl

theorem length_slashed_dirname_le (path : Str) :
    (slashed (dirname path)).length ≤ path.length := by
  have hpre : ∀ text : Str, text.length ≤ path.length →
      (slashed (dirText (upToLastSlash text))).length ≤ path.length := by
    intro text hle
    have hcut := (List.rdropWhile_prefix (fun c => decide (c ≠ '/')) text).length_le
    exact (length_slashed_dirText_le (isFront_upToLastSlash text)).trans (hcut.trans hle)
  rw [dirname_eq]
  split
  · exact hpre path (Nat.le_refl _)
  · exact hpre _ (List.rdropWhile_prefix _ path).length_le

/-- A directory is written with the characters of its path, slashes and dots. -/
theorem not_mem_dirname {c : Char} {path : Str} (hslash : c ≠ '/') (hdot : c ≠ '.')
    (h : c ∉ path) : c ∉ dirname path := by
  have hfront : ∀ text : Str, c ∉ text → c ∉ dirText (upToLastSlash text) := by
    intro text htext
    have hup : c ∉ upToLastSlash text := fun hmem =>
      htext ((List.rdropWhile_prefix _ text).subset hmem)
    rw [dirText]
    split
    · simpa [dot] using hdot
    · split
      · split
        · exact hup
        · simpa using hslash
      · exact fun hmem => hup ((List.rdropWhile_prefix _ _).subset hmem)
  rw [dirname_eq]
  split
  · exact hfront path h
  · exact hfront _ (fun hmem => h ((List.rdropWhile_prefix _ path).subset hmem))

theorem not_mem_slashed {c : Char} {dir : Str} (hslash : c ≠ '/') (h : c ∉ dir) :
    c ∉ slashed dir := by
  rw [slashed]
  split
  · exact List.not_mem_nil
  · split
    · simpa [hslash] using h
    · exact h

end Dirname

section Parts

variable {path : Str}

theorem slash_not_mem_fileName (path : Str) : '/' ∉ fileName .posix path := by
  intro hmem
  have hsep := isFileSeparator_of_mem_fileName hmem
  cases hsep

theorem upToLastSlash_append_fileName (path : Str) :
    upToLastSlash path ++ fileName .posix path = path := by
  rw [← directoryPart_posix, directoryPart_append_fileName]

theorem nul_not_mem_slashed_parent (path : Str) : '\x00' ∉ slashed (parent .c path) :=
  not_mem_slashed (by decide) (not_mem_dirname (by decide) (by decide) (nul_not_mem_cStr path))

/-- The file name is in sight of `dirname`, and all that is in front of it. -/
def NameSeen (path : Str) : Prop :=
  '\x00' ∉ upToLastSlash path ∧ (fileName .posix path).head? ≠ some '\x00'

/-- A C string shows a name and the text in front of it, or no more than that text. -/
theorem cStr_append_name {front name : Str} (hfront : '\x00' ∉ front) (hne : name ≠ [])
    (hhead : name.head? ≠ some '\x00') :
    ∃ seen, cStr (front ++ name) = front ++ seen ∧ seen ≠ [] ∧ seen <+: name := by
  obtain ⟨c, rest, rfl⟩ := List.exists_cons_of_ne_nil hne
  have hc : c ≠ '\x00' := fun heq => hhead (congrArg some heq)
  refine ⟨cStr (c :: rest), cStr_append_of_not_mem hfront _, ?_, List.takeWhile_prefix _⟩
  rw [cStr_cons_of_ne hc]
  exact List.cons_ne_nil _ _

theorem parent_append {front name : Str} (hfront : IsFront front) (hnul : '\x00' ∉ front)
    (hne : name ≠ []) (hname : '/' ∉ name) (hhead : name.head? ≠ some '\x00') :
    parent .c (front ++ name) = dirText front := by
  obtain ⟨seen, hseen, hseen', hpre⟩ := cStr_append_name hnul hne hhead
  rw [parent, hseen]
  exact dirname_append hfront hseen' (fun hmem => hname (hpre.subset hmem))

theorem parent_of_nameSeen (hne : fileName .posix path ≠ []) (h : NameSeen path) :
    parent .c path = dirText (upToLastSlash path) := by
  have hparent := parent_append (isFront_upToLastSlash path) h.1 hne
    (slash_not_mem_fileName path) h.2
  rwa [upToLastSlash_append_fileName] at hparent

/-- Otherwise `dirname` sees no more than what is in front of the file name. -/
theorem cStr_of_not_nameSeen (h : ¬ NameSeen path) :
    cStr path = cStr (upToLastSlash path) := by
  have hcut := upToLastSlash_append_fileName path
  by_cases hnul : '\x00' ∈ upToLastSlash path
  · rw [← cStr_append_of_mem hnul (fileName .posix path), hcut]
  · have hhead : (fileName .posix path).head? = some '\x00' := by
      by_contra hhead
      exact h ⟨hnul, hhead⟩
    obtain ⟨rest, hrest⟩ := List.head?_eq_some_iff.mp hhead
    rw [← hcut, hrest, cStr_append_of_not_mem hnul, cStr_cons_nul, List.append_nil, ← hrest, hcut,
      cStr_of_not_mem hnul]

/-- A file name that a null character starts is cut off. -/
theorem parent_append_nul {front name : Str} (hnul : '\x00' ∉ front)
    (hhead : name.head? = some '\x00') : parent .c (front ++ name) = dirname front := by
  obtain ⟨rest, rfl⟩ := List.head?_eq_some_iff.mp hhead
  rw [parent, cStr_append_of_not_mem hnul, cStr_cons_nul, List.append_nil]

end Parts

section WithSuffix

variable {path ext : Str}

theorem stem_ne_nil (hne : fileName .posix path ≠ []) : stem .posix path ≠ [] := fun h =>
  hne ((stem_eq_nil_iff .posix path).mp h)

theorem withSuffix_eq (hne : fileName .posix path ≠ []) (newSuffix : Str) :
    withSuffix path newSuffix =
      slashed (parent .c path) ++ (stem .posix path ++ newSuffix) := by
  have hstem := stem_ne_nil hne
  rw [withSuffix, slashed, if_neg (by simpa using hstem)]
  dsimp only
  split
  · rfl
  · rw [List.append_assoc]

/-- The stem is a front part of the file name. -/
theorem stem_isPrefix (path : Str) : stem .posix path <+: fileName .posix path := by
  rw [stem]
  split
  · exact List.prefix_refl _
  · split
    · split
      · exact List.take_prefix _ _
      · exact List.prefix_refl _
    · exact List.prefix_refl _

theorem head?_stem (hne : fileName .posix path ≠ []) :
    (stem .posix path).head? = (fileName .posix path).head? := by
  have hstem := stem_ne_nil hne
  obtain ⟨rest, hrest⟩ := stem_isPrefix path
  rw [← hrest, List.head?_append_of_ne_nil _ hstem]

theorem slash_not_mem_stem (path : Str) : '/' ∉ stem .posix path := fun hmem =>
  slash_not_mem_fileName path ((stem_isPrefix path).subset hmem)

theorem slash_not_mem_stem_append {newSuffix : Str} (h : '/' ∉ newSuffix) :
    '/' ∉ stem .posix path ++ newSuffix := by
  rw [List.mem_append, not_or]
  exact ⟨slash_not_mem_stem path, h⟩

/-- The result of `with_suffix` has the old stem and the new suffix as its name. -/
theorem fileName_withSuffix (hne : fileName .posix path ≠ []) {newSuffix : Str}
    (hslash : '/' ∉ newSuffix) :
    fileName .posix (withSuffix path newSuffix) = stem .posix path ++ newSuffix := by
  have hname : '/' ∉ stem .posix path ++ newSuffix := slash_not_mem_stem_append hslash
  have hcut := upToLastSlash_append_fileName (withSuffix path newSuffix)
  rw [withSuffix_eq hne] at hcut ⊢
  rwa [upToLastSlash_append (isFront_slashed _) hname, List.append_right_inj] at hcut

theorem suffix_stem_withSuffix (hne : fileName .posix path ≠ []) (hext : ext ≠ [])
    (hdot : '.' ∉ ext) (hslash : '/' ∉ ext) :
    suffix .posix (withSuffix path ('.' :: ext)) = '.' :: ext ∧
      stem .posix (withSuffix path ('.' :: ext)) = stem .posix path := by
  have hstem := stem_ne_nil hne
  have hslash' : '/' ∉ '.' :: ext := by simpa using hslash
  have hname := fileName_withSuffix hne hslash'
  have hdots : fileName .posix (withSuffix path ('.' :: ext)) ≠ dotdot := by
    intro heq
    rw [hname] at heq
    have hlen := congrArg List.length heq
    have hpos := List.length_pos_iff.mpr hstem
    have hpos' := List.length_pos_iff.mpr hext
    rw [List.length_append, List.length_cons] at hlen
    have htwo : dotdot.length = 2 := rfl
    omega
  exact ⟨suffix_of_dot hname hstem hdot, stem_of_dot hname hstem hdot hdots⟩

/-- The directory of the result, where its name is in sight. -/
theorem parent_withSuffix (hne : fileName .posix path ≠ []) {newSuffix : Str}
    (hslash : '/' ∉ newSuffix) (hhead : (fileName .posix path).head? ≠ some '\x00') :
    parent .c (withSuffix path newSuffix) = parent .c path := by
  have hstem := stem_ne_nil hne
  have hname : '/' ∉ stem .posix path ++ newSuffix := slash_not_mem_stem_append hslash
  have hfront := nul_not_mem_slashed_parent path
  rw [withSuffix_eq hne, parent_append (isFront_slashed _) hfront (by simp [hstem]) hname]
  · rw [parent, dirname_eq]
    exact dirText_slashed_dirText (isFront_upToLastSlash _)
  · rwa [List.head?_append_of_ne_nil _ hstem, head?_stem hne]

/-- Directories that `dirname` gives back when it is called on them. -/
theorem dirname_slashed_eq_iff {dir : Str} (hne : dir ≠ []) :
    dirname (slashed dir) = dir ↔ dir = dot ∨ dir = ['/'] ∨ dir = ['/', '/'] := by
  constructor
  · intro heq
    have hself := (slashed_dirname_eq_iff (slashed dir)).mp (congrArg slashed heq)
    rw [slashed] at hself
    split at hself
    · rename_i hdot
      exact .inl hdot
    · split at hself
      · obtain hnil | hone | htwo := hself
        · exact absurd hnil (List.concat_ne_nil _ _)
        · have hcut : dir ++ ['/'] = [] ++ ['/'] := hone
          exact absurd (List.append_cancel_right hcut) hne
        · have hcut : dir ++ ['/'] = ['/'] ++ ['/'] := htwo
          exact .inr (.inl (List.append_cancel_right hcut))
      · exact .inr (hself.resolve_left hne)
  · rintro (rfl | rfl | rfl)
    all_goals rfl

/-- `with_suffix` changes the suffix only. The directory may change where a null
character starts the file name. -/
theorem withSuffix_changes_suffix (hne : fileName .posix path ≠ []) (hext : ext ≠ [])
    (hdot : '.' ∉ ext) (hslash : '/' ∉ ext) :
    suffix .posix (withSuffix path ('.' :: ext)) = '.' :: ext ∧
      stem .posix (withSuffix path ('.' :: ext)) = stem .posix path ∧
      (parent .c (withSuffix path ('.' :: ext)) = parent .c path ↔
        (fileName .posix path).head? ≠ some '\x00' ∨ parent .c path = dot ∨
          parent .c path = ['/'] ∨ parent .c path = ['/', '/']) := by
  obtain ⟨hsuffix, hstem⟩ := suffix_stem_withSuffix hne hext hdot hslash
  refine ⟨hsuffix, hstem, ?_⟩
  by_cases hhead : (fileName .posix path).head? = some '\x00'
  · have hne' := stem_ne_nil hne
    have hhead' : (stem .posix path ++ '.' :: ext).head? = some '\x00' := by
      rw [List.head?_append_of_ne_nil _ hne', head?_stem hne, hhead]
    rw [withSuffix_eq hne, parent_append_nul (nul_not_mem_slashed_parent path) hhead',
      dirname_slashed_eq_iff (parent_ne_nil .c path), or_iff_right (not_not.mpr hhead)]
  · have hslash' : '/' ∉ '.' :: ext := by simpa using hslash
    exact iff_of_true (parent_withSuffix hne hslash' hhead) (.inl hhead)

theorem withSuffix_changes_suffix_hidden :
    suffix .posix (withSuffix "d//.a.b".toList ('.' :: "c".toList)) = '.' :: "c".toList ∧
      stem .posix (withSuffix "d//.a.b".toList ('.' :: "c".toList)) =
        stem .posix "d//.a.b".toList ∧
      (parent .c (withSuffix "d//.a.b".toList ('.' :: "c".toList)) = parent .c "d//.a.b".toList ↔
        (fileName .posix "d//.a.b".toList).head? ≠ some '\x00' ∨
          parent .c "d//.a.b".toList = dot ∨ parent .c "d//.a.b".toList = ['/'] ∨
          parent .c "d//.a.b".toList = ['/', '/']) :=
  withSuffix_changes_suffix (by decide) (by decide) (by decide) (by decide)

/-- `dirname` sees `"x/y/"` of the path, and `"x/"` of the result. -/
theorem parent_withSuffix_ne_of_nul :
    ¬ ∀ path ext : Str, fileName .posix path ≠ [] → ext ≠ [] → '.' ∉ ext → '/' ∉ ext →
      suffix .posix (withSuffix path ('.' :: ext)) = '.' :: ext ∧
        stem .posix (withSuffix path ('.' :: ext)) = stem .posix path ∧
        parent .c (withSuffix path ('.' :: ext)) = parent .c path := by
  intro h
  have hparent := (h "x/y/\x00c".toList "txt".toList (by decide) (by decide) (by decide)
    (by decide)).2.2
  exact absurd hparent (by decide)

end WithSuffix

section ReplaceExtension

variable {path : Str}

namespace StdPath

/-- `extension` on POSIX systems. -/
def extension (path : Str) : Str :=
  let p := filename .posix path
  if p = dot ∨ p = dotdot then []
  else match Scan.rfind p '.' with
    | some i => if i ≠ 0 then p.drop i else []
    | none => []

/-- `replace_extension` on POSIX systems. -/
def replaceExtension (path replacement : Str) : Str :=
  let p := path.take (path.length - (extension path).length)
  let p := if replacement ≠ [] ∧ replacement.head? ≠ some '.' then p ++ ['.'] else p
  p ++ replacement

theorem filename_posix (path : Str) : filename .posix path = fileName .posix path := rfl

/-- The two dots of `".."` aside, the extension is the suffix. -/
theorem extension_eq (path : Str) :
    extension path = if fileName .posix path = dotdot then [] else suffix .posix path := by
  rw [extension, filename_posix, suffix]
  by_cases hdots : fileName .posix path = dotdot
  · rw [hdots]
    rfl
  · by_cases hdot : fileName .posix path = dot
    · rw [hdot]
      rfl
    · exact (if_neg (not_or.mpr ⟨hdot, hdots⟩)).trans (if_neg hdots).symm

/-- Without its extension a path is its front and its stem. -/
theorem stem_append_extension (path : Str) :
    stem .posix path ++ extension path = fileName .posix path := by
  rw [extension_eq]
  by_cases hdots : fileName .posix path = dotdot
  · rw [if_pos hdots, stem_of_dotdot hdots, hdots, List.append_nil]
  · rw [if_neg hdots]
    exact ((splitsName_iff .posix path).mpr (fun h => hdots (fileName_eq_dotdot_iff.mpr h))).append

theorem replaceExtension_eq (path replacement : Str) :
    replaceExtension path replacement =
      upToLastSlash path ++ (stem .posix path ++
        ((if replacement ≠ [] ∧ replacement.head? ≠ some '.' then ['.'] else []) ++
          replacement)) := by
  have hcut : path = upToLastSlash path ++ stem .posix path ++ extension path := by
    rw [List.append_assoc, stem_append_extension, upToLastSlash_append_fileName]
  have htake : path.take (path.length - (extension path).length) =
      upToLastSlash path ++ stem .posix path := by
    have hlen := congrArg List.length hcut
    rw [List.length_append] at hlen
    rw [hlen, Nat.add_sub_cancel]
    exact (List.prefix_iff_eq_take.mp ⟨_, hcut.symm⟩).symm
  rw [replaceExtension, htake]
  split
  · simp only [List.append_assoc]
  · simp only [List.append_assoc, List.nil_append]

end StdPath

/-- In front of the file name is nothing or a root, or else one slash at the end of
more than a dot, and the name is in sight. -/
def FrontKept (path : Str) : Prop :=
  (upToLastSlash path = [] ∨ upToLastSlash path = ['/'] ∨ upToLastSlash path = ['/', '/']) ∨
    NameSeen path ∧ upToLastSlash path ≠ ['.', '/'] ∧
      (upToLastSlash path).dropLast.getLast? ≠ some '/'

theorem slashed_parent_eq_iff (hne : fileName .posix path ≠ []) :
    slashed (parent .c path) = upToLastSlash path ↔ FrontKept path := by
  by_cases hseen : NameSeen path
  · rw [parent_of_nameSeen hne hseen, slashed_dirText_eq_iff (isFront_upToLastSlash path),
      FrontKept, and_iff_right hseen]
    constructor
    · rintro (htwo | hplain)
      · exact .inl (.inr (.inr htwo))
      · exact .inr hplain
    · rintro ((hnil | hone | htwo) | hplain)
      · exact .inr (by rw [hnil]; decide)
      · exact .inr (by rw [hone]; decide)
      · exact .inl htwo
      · exact .inr hplain
  · rw [FrontKept, or_iff_left (fun h => hseen h.1)]
    by_cases hnul : '\x00' ∈ upToLastSlash path
    · refine iff_of_false (fun heq => ?_) ?_
      · rw [← heq] at hnul
        exact nul_not_mem_slashed_parent path hnul
      · rintro (hroot | hroot | hroot)
        all_goals
          rw [hroot] at hnul
          exact absurd hnul (by decide)
    · -- `dirname` is called on the text in front of the name
      rw [parent, cStr_of_not_nameSeen hseen, cStr_of_not_mem hnul]
      exact slashed_dirname_eq_iff _

theorem length_slashed_parent_le (hne : fileName .posix path ≠ []) :
    (slashed (parent .c path)).length ≤ (upToLastSlash path).length := by
  by_cases hseen : NameSeen path
  · rw [parent_of_nameSeen hne hseen]
    exact length_slashed_dirText_le (isFront_upToLastSlash path)
  · rw [parent, cStr_of_not_nameSeen hseen]
    exact (length_slashed_dirname_le _).trans (List.takeWhile_prefix _).length_le

/-- The two backends agree where the text in front of the name is kept, and the
suffix is nothing or has its dot. -/
theorem withSuffix_eq_replaceExtension_iff (hne : fileName .posix path ≠ []) (newSuffix : Str) :
    withSuffix path newSuffix = StdPath.replaceExtension path newSuffix ↔
      FrontKept path ∧ (newSuffix = [] ∨ newSuffix.head? = some '.') := by
  rw [withSuffix_eq hne, StdPath.replaceExtension_eq, ← slashed_parent_eq_iff hne]
  have hle := length_slashed_parent_le hne
  by_cases hdot : newSuffix ≠ [] ∧ newSuffix.head? ≠ some '.'
  · rw [if_pos hdot]
    refine iff_of_false (fun heq => ?_) (fun h => ?_)
    · have hlen := congrArg List.length heq
      simp only [List.length_append, List.length_singleton] at hlen
      omega
    · exact h.2.elim hdot.1 hdot.2
  · rw [if_neg hdot, List.nil_append, List.append_left_inj]
    rw [not_and_or, not_not, not_not] at hdot
    exact (and_iff_left hdot).symm

theorem withSuffix_eq_replaceExtension_dir :
    withSuffix "my/file.h5".toList ".hdf5".toList =
      StdPath.replaceExtension "my/file.h5".toList ".hdf5".toList :=
  (withSuffix_eq_replaceExtension_iff (by decide) _).mpr
    ⟨.inr ⟨⟨by decide, by decide⟩, by decide, by decide⟩, .inr (by decide)⟩

/-- The C backend drops the directory `"."`. -/
theorem withSuffix_ne_replaceExtension_dot :
    ¬ ∀ path newSuffix : Str, fileName .posix path ≠ [] → '/' ∉ newSuffix →
      withSuffix path newSuffix = StdPath.replaceExtension path newSuffix := by
  intro h
  exact absurd (h "./a".toList ".txt".toList (by decide) (by decide)) (by decide)

end ReplaceExtension

section JoinParts

/-- The slashes at the end of a path do not matter to the place it names. -/
theorem place_append_slashes {dir : Str} (hne : dir ≠ []) (k : Nat) :
    place (dir ++ List.replicate k '/') = place dir := by
  induction k with
  | zero => rw [List.replicate_zero, List.append_nil]
  | succ k ih =>
      have hne' : dir ++ List.replicate k '/' ≠ [] := by simp [hne]
      rw [List.replicate_succ', ← List.append_assoc, place_append_slash hne', movesOf_nil,
        Place.walk_nil, ih]

/-- The directory of a name is the place that the text in front of the name is. -/
theorem place_dirText {front : Str} (h : IsFront front) : place (dirText front) = place front := by
  obtain rfl | ⟨dir, k, rfl, hlast⟩ := h.cases
  · rfl
  by_cases hne : dir = []
  · have hroot : ∀ k, place ('/' :: List.replicate k '/') = place ['/'] :=
      place_append_slashes (List.cons_ne_nil '/' [])
    rw [hne, List.nil_append, dirText_slashes, List.replicate_succ, hroot]
    split
    · exact hroot 1
    · rfl
  · rw [dirText_of_dir hne hlast, place_append_slashes hne]

/-- A name is walked from the place of the text in front of it. -/
theorem place_append_name {front name : Str} (h : IsFront front) (hname : isRooted name = false) :
    place (front ++ name) = (place front).walk (movesOf name) := by
  have hsep : joinSep front = [] := by
    obtain rfl | ⟨text, rfl⟩ := h
    · rfl
    · simp [joinSep]
  have hjoin := place_stdJoin front name
  rwa [stdJoin_of_not_rooted hname, hsep, List.append_nil, hname, if_neg Bool.false_ne_true]
    at hjoin

theorem isRooted_fileName (path : Str) : isRooted (fileName .posix path) = false := by
  rw [isRooted, beq_eq_false_iff_ne]
  intro hhead
  exact slash_not_mem_fileName path (List.mem_of_mem_head? hhead)

/-- A path is walked to the text in front of its file name, and on along that. -/
theorem place_eq_walk_fileName (path : Str) :
    place path = (place (upToLastSlash path)).walk (movesOf (fileName .posix path)) := by
  rw [← place_append_name (isFront_upToLastSlash path) (isRooted_fileName path),
    upToLastSlash_append_fileName]

/-- The text that `dirname` keeps of what it sees, with the slashes at its end. -/
def keptFront (path : Str) : Str :=
  let seen := cStr path
  upToLastSlash (if seen.rdropWhile (· = '/') = [] then seen else seen.rdropWhile (· = '/'))

theorem place_parent (path : Str) : place (parent .c path) = place (keptFront path) := by
  rw [parent, dirname_eq, place_dirText (isFront_upToLastSlash _), keptFront]

theorem place_parent_of_nameSeen {path : Str} (hne : fileName .posix path ≠ [])
    (hseen : NameSeen path) : place (parent .c path) = place (upToLastSlash path) := by
  rw [parent_of_nameSeen hne hseen, place_dirText (isFront_upToLastSlash path)]

/-- A path joined of its parent and its file name means the same where `dirname` sees
the file name. Behind a null character it does where the text that `dirname` keeps leads
where all of the text in front of the file name does, or to another directory with the
same parent when the file name is `".."`. -/
theorem normal_join_parent_fileName {path : Str} (hne : fileName .posix path ≠ []) :
    normal .posix (join .posix (parent .c path) (fileName .posix path)) = normal .posix path ↔
      NameSeen path ∨ place (keptFront path) = place (upToLastSlash path) ∨
        fileName .posix path = dotdot ∧
          (place (keptFront path)).step .up = (place (upToLastSlash path)).step .up := by
  have hslash := slash_not_mem_fileName path
  have hmoves : movesOf (fileName .posix path) = [moveOf (fileName .posix path)] := by
    rw [movesOf, Scan.components_of_not_mem hne hslash, List.map_singleton]
  have hsteps : normal .posix (join .posix (parent .c path) (fileName .posix path)) =
      normal .posix path ↔ (place (parent .c path)).step (moveOf (fileName .posix path)) =
        (place (upToLastSlash path)).step (moveOf (fileName .posix path)) := by
    rw [normal_eq_normal_iff, place_join, isRooted_fileName, if_neg Bool.false_ne_true,
      place_eq_walk_fileName path, hmoves]
    rfl
  rw [hsteps]
  by_cases hseen : NameSeen path
  · exact iff_of_true (by rw [place_parent_of_nameSeen hne hseen]) (.inl hseen)
  rw [or_iff_right hseen, place_parent]
  by_cases hup : fileName .posix path = dotdot
  · rw [hup, moveOf_dotdot]
    exact ⟨fun h => .inr ⟨rfl, h⟩, fun h => h.elim (congrArg (Place.step · .up)) And.right⟩
  · have hmove : moveOf (fileName .posix path) ≠ .up := by
      rcases piece_cases hslash with hstay | hdots | hname
      · rw [moveOf_stay hstay]
        simp
      · exact absurd hdots hup
      · rw [moveOf_of_isName hname]
        simp
    rw [Place.step_inj hmove, or_iff_left (fun h => hup h.1)]

theorem normal_join_parent_fileName_dots :
    normal .posix (join .posix (parent .c "//a/./b//..".toList)
        (fileName .posix "//a/./b//..".toList)) = normal .posix "//a/./b//..".toList :=
  (normal_join_parent_fileName (by decide)).mpr (.inl ⟨by decide, by decide⟩)

/-- `dirname` sees `"x/y"` of the path. -/
theorem normal_join_parent_fileName_ne_of_nul :
    ¬ ∀ path : Str, fileName .posix path ≠ [] →
      normal .posix (join .posix (parent .c path) (fileName .posix path)) =
        normal .posix path := by
  intro h
  have hnormal := h "x/y\x00/z".toList (by decide)
  rw [normal_eq_render, normal_eq_render] at hnormal
  exact absurd hnormal (by decide)

end JoinParts

end Ffilesystem
