import Ffilesystem.FileName
import Ffilesystem.Library.Bisect
import Ffilesystem.SafeName
import Mathlib.Data.Char

/-!
# The table of reserved names

`is_reserved` looks the upper-cased stem of a file name up in a table of device
names. Which of three library functions does so is chosen when the library is
compiled. Two of them halve the table, which is not sorted: of the names with a
superscript digit, the one with the greatest byte comes first.

A stem is looked up only if it has three or four bytes, which not all entries
have, and only the last extension is no part of it.
-/

namespace Ffilesystem

/-- The library function that looks a name up. -/
inductive Lookup
  | contains
  | rangesBinarySearch
  | stdBinarySearch
  deriving DecidableEq, Repr

def Lookup.find : Lookup → List Str → Str → Bool
  | contains, r, s => r.contains s
  | rangesBinarySearch, r, s => Bisect.binarySearch r s
  | stdBinarySearch, r, s => Bisect.binarySearch r s

/-- The characters that no file name holds. -/
def forbiddenChars : Str := "<>:\"/\\|?*".toList

def isReservedBy (lookup : Lookup) (pl : Platform) (path : Str) : Bool :=
  if !pl.isWindows then false
  else
    let n := fileName pl path
    if n.isEmpty || n == dot then false
    else if n.getLast? == some '.' || n.getLast? == some ' ' then true
    else if n.any (fun c => forbiddenChars.contains c) then true
    else
      let s := stem pl n
      if s.length < 3 || s.length > 4 then false
      else lookup.find deviceNames (asciiUpper s)

theorem isReservedBy_contains (pl : Platform) (path : Str) :
    isReservedBy .contains pl path = isReserved pl path := rfl

/-- A file name that a device name is the only reason to reserve. -/
structure Storable (n : Str) : Prop where
  nonempty : n ≠ []
  ne_dot : n ≠ dot
  last_ne : n.getLast? ≠ some '.' ∧ n.getLast? ≠ some ' '
  allowed : ∀ c ∈ n, c ∉ forbiddenChars

/-- The entries that are too long to be looked up. -/
def longDeviceNames : List Str := deviceNames.filter (4 < ·.length)

section Table

/-- Of two entries the first is the smaller one, or both go on after the same four bytes. -/
theorem pairwise_deviceNames :
    deviceNames.Pairwise
      (fun a b => a ≤ b ∨ 4 < a.length ∧ 4 < b.length ∧ a.take 4 = b.take 4) := by
  decide +kernel

/-- A query of at most four bytes does not see where the order is broken. -/
theorem partitioned_deviceNames {s : Str} (h : s.length ≤ 4) :
    Bisect.Partitioned s deviceNames := by
  refine pairwise_deviceNames.imp (fun hab => ?_)
  obtain hle | ⟨ha, hb, htake⟩ := hab
  · exact ⟨fun hlt => lt_of_le_of_lt hle hlt, fun hlt => lt_of_lt_of_le hlt hle⟩
  · obtain ⟨hlt, hgt⟩ := Bisect.lt_iff_of_take_eq ha hb htake h
    exact ⟨hlt.mpr, hgt.mp⟩

theorem find_deviceNames_iff (lookup : Lookup) {s : Str} (h : s.length ≤ 4) :
    lookup.find deviceNames s = true ↔ s ∈ deviceNames := by
  cases lookup with
  | contains => exact List.contains_iff_mem
  | rangesBinarySearch => exact Bisect.binarySearch_iff_mem (partitioned_deviceNames h)
  | stdBinarySearch => exact Bisect.binarySearch_iff_mem (partitioned_deviceNames h)

theorem length_asciiUpper (s : Str) : (asciiUpper s).length = s.length := List.length_map _

/-- The test of the length in front of the lookup. -/
theorem skipsLength_iff (s : Str) :
    (s.length < 3 || s.length > 4) = true ↔ s.length < 3 ∨ 4 < s.length := by
  rw [Bool.or_eq_true, decide_eq_true_eq, decide_eq_true_eq]

theorem three_le_of_mem_deviceNames {d : Str} (h : d ∈ deviceNames) : 3 ≤ d.length := by
  have hall : ∀ d ∈ deviceNames, 3 ≤ d.length := by decide
  exact hall d h

theorem dot_not_mem_of_mem_deviceNames {d : Str} (h : d ∈ deviceNames) : '.' ∉ d := by
  have hall : ∀ d ∈ deviceNames, '.' ∉ d := by decide
  exact hall d h

end Table

section Lookup

variable {path : Str}

/-- The library functions give one answer, although the table is not sorted. -/
theorem isReservedBy_eq (lookup lookup' : Lookup) (pl : Platform) (path : Str) :
    isReservedBy lookup pl path = isReservedBy lookup' pl path := by
  simp only [isReservedBy]
  split
  · rfl
  split
  · rfl
  split
  · rfl
  split
  · rfl
  split
  · rfl
  · rename_i hlen
    have hle : (asciiUpper (stem pl (fileName pl path))).length ≤ 4 := by
      rw [skipsLength_iff] at hlen
      rw [length_asciiUpper]
      omega
    rw [Bool.eq_iff_iff, find_deviceNames_iff lookup hle, find_deviceNames_iff lookup' hle]

theorem isReservedBy_iff (lookup : Lookup) (h : Storable (fileName .windows path)) :
    isReservedBy lookup .windows path = true ↔
      asciiUpper (stem .windows (fileName .windows path)) ∈ deviceNames ∧
        (stem .windows (fileName .windows path)).length ≤ 4 := by
  obtain ⟨hne, hdot, ⟨hlast, hspace⟩, hallowed⟩ := h
  have hempty : ((fileName .windows path).isEmpty || fileName .windows path == dot) ≠ true := by
    rw [ne_eq, Bool.or_eq_true, List.isEmpty_iff, beq_iff_eq]
    exact fun h => h.elim hne hdot
  have hend : ((fileName .windows path).getLast? == some '.' ||
      (fileName .windows path).getLast? == some ' ') ≠ true := by
    rw [ne_eq, Bool.or_eq_true, beq_iff_eq, beq_iff_eq]
    exact fun h => h.elim hlast hspace
  have hchars : (fileName .windows path).any (fun c => forbiddenChars.contains c) ≠ true := by
    rw [ne_eq, List.any_eq_true]
    rintro ⟨c, hc, hforbidden⟩
    exact hallowed c hc (List.contains_iff_mem.mp hforbidden)
  have hwin : ¬ (!Platform.windows.isWindows) = true := Bool.false_ne_true
  rw [isReservedBy, if_neg hwin]
  dsimp only
  rw [if_neg hempty, if_neg hend, if_neg hchars]
  split
  · rename_i hlen
    rw [skipsLength_iff] at hlen
    refine iff_of_false Bool.false_ne_true (fun hmem => ?_)
    have hge := three_le_of_mem_deviceNames hmem.1
    rw [length_asciiUpper] at hge
    omega
  · rename_i hlen
    rw [skipsLength_iff] at hlen
    rw [find_deviceNames_iff lookup (by rw [length_asciiUpper]; omega)]
    exact (and_iff_left (by omega)).symm

/-- The three lookups agree on every path, and they find a name that can be stored exactly
when it is in the table, unless it is one of the long entries. -/
theorem isReservedBy_iff_table_iff (path : Str) :
    (∀ lookup lookup' : Lookup,
        isReservedBy lookup .windows path = isReservedBy lookup' .windows path) ∧
      (Storable (fileName .windows path) → ∀ lookup : Lookup,
        ((isReservedBy lookup .windows path = true ↔
            asciiUpper (stem .windows (fileName .windows path)) ∈ deviceNames) ↔
          asciiUpper (stem .windows (fileName .windows path)) ∉ longDeviceNames)) := by
  refine ⟨fun lookup lookup' => isReservedBy_eq lookup lookup' .windows path,
    fun hstorable lookup => ?_⟩
  rw [isReservedBy_iff lookup hstorable, longDeviceNames, List.mem_filter, length_asciiUpper,
    decide_eq_true_eq]
  constructor
  · intro h hlong
    have hshort := (h.mpr hlong.1).2
    omega
  · intro hnot
    refine and_iff_left_of_imp (fun hmem => ?_)
    by_contra hlong
    exact hnot ⟨hmem, by omega⟩

theorem allowed_of_all {n : Str} (h : n.all (fun c => !forbiddenChars.contains c) = true) :
    ∀ c ∈ n, c ∉ forbiddenChars := by
  intro c hc hmem
  have hnot := List.all_eq_true.mp h c hc
  rw [List.contains_iff_mem.mpr hmem] at hnot
  cases hnot

/-- A name that can be stored, lower-cased and with an extension. -/
theorem storable_nul : Storable "nul.txt".toList :=
  ⟨by decide, by decide, by decide, allowed_of_all (by decide)⟩

theorem isReservedBy_iff_table_nul :
    isReservedBy .stdBinarySearch .windows "nul.txt".toList = true ↔
      asciiUpper (stem .windows (fileName .windows "nul.txt".toList)) ∈ deviceNames :=
  ((isReservedBy_iff_table_iff "nul.txt".toList).2 storable_nul .stdBinarySearch).mpr (by decide)

/-- An entry of six bytes is not found. -/
theorem not_isReservedBy_iff_table_conin :
    ¬ ∀ (path : Str) (lookup : Lookup), Storable (fileName .windows path) →
      (isReservedBy lookup .windows path = true ↔
        asciiUpper (stem .windows (fileName .windows path)) ∈ deviceNames) := by
  intro h
  have hstorable : Storable (fileName .windows "CONIN$".toList) :=
    ⟨by decide, by decide, by decide, allowed_of_all (by decide)⟩
  exact absurd ((h "CONIN$".toList .contains hstorable).mpr (by decide)) (by decide)

end Lookup

/-- A name with extensions, each behind a dot of its own. -/
def withExtensions (name : Str) (exts : List Str) : Str := name ++ exts.flatMap ('.' :: ·)

def IsExtension (ext : Str) : Prop := ext ≠ [] ∧ ∀ c ∈ ext, c.isAlphanum

section Extensions

variable {name : Str} {exts : List Str}

theorem isAlphanum_of_asciiUpperChar {c : Char} (h : (asciiUpperChar c).isAlphanum) :
    c.isAlphanum := by
  rw [asciiUpperChar] at h
  split at h
  · rename_i hlower
    have hlow : c.isLower = true :=
      Bool.and_eq_true_iff.mpr ⟨decide_eq_true hlower.1, decide_eq_true hlower.2⟩
    show ((c.isUpper || c.isLower) || c.isDigit) = true
    rw [hlow, Bool.or_true, Bool.true_or]
  · exact h

theorem ne_of_isAlphanum {c x : Char} (h : c.isAlphanum) (hx : x.isAlphanum = false) :
    c ≠ x := by
  rintro rfl
  rw [hx] at h
  cases h

/-- The short entries are made of letters and digits, in any case of the letters. -/
theorem isAlphanum_of_short {d : Str} (hd : d ∈ deviceNames) (hlen : d.length ≤ 4)
    (hname : asciiUpper name = d) : ∀ c ∈ name, c.isAlphanum := by
  have hall : ∀ d ∈ deviceNames, d.length ≤ 4 → d.all Char.isAlphanum = true := by decide
  intro c hc
  apply isAlphanum_of_asciiUpperChar
  exact List.all_eq_true.mp (hall d hd hlen) _ (hname ▸ List.mem_map_of_mem hc)

theorem withExtensions_concat (name : Str) (exts : List Str) (ext : Str) :
    withExtensions name (exts ++ [ext]) = withExtensions name exts ++ '.' :: ext := by
  simp [withExtensions]

/-- Besides the dots there are only letters and digits. -/
theorem mem_withExtensions {c : Char} (hname : ∀ c ∈ name, c.isAlphanum)
    (hexts : ∀ ext ∈ exts, IsExtension ext) (hc : c ∈ withExtensions name exts) :
    c.isAlphanum ∨ c = '.' := by
  obtain hc | hc := List.mem_append.mp hc
  · exact .inl (hname c hc)
  · obtain ⟨ext, hext, hc⟩ := List.mem_flatMap.mp hc
    obtain rfl | hc := List.mem_cons.mp hc
    · exact .inr rfl
    · exact .inl ((hexts ext hext).2 c hc)

/-- Neither separators nor forbidden characters are letters, digits or dots. -/
theorem not_mem_of_forbidden {c : Char} (h : c.isAlphanum ∨ c = '.') :
    c ∉ forbiddenChars := by
  intro hmem
  have hall : forbiddenChars.all (fun x => !x.isAlphanum && x != '.') = true := by decide
  have hc := List.all_eq_true.mp hall c hmem
  rw [Bool.and_eq_true, Bool.not_eq_true', bne_iff_ne] at hc
  exact h.elim (fun halnum => ne_of_isAlphanum halnum hc.1 rfl) hc.2

theorem not_any_isFileSeparator {n : Str} (h : ∀ c ∈ n, c.isAlphanum ∨ c = '.') :
    ¬ n.any Platform.windows.isFileSeparator := by
  rw [List.any_eq_true]
  rintro ⟨c, hc, hsep⟩
  apply not_mem_of_forbidden (h c hc)
  obtain rfl | rfl : c = '/' ∨ c = '\\' := by
    simpa [Platform.isFileSeparator, Platform.fileSeparator, Platform.isWindows] using hsep
  · decide
  · decide

/-- An extension at the end hides the dots from the tests of a name's last character. -/
theorem storable_of_extension {front ext : Str} (hfront : front ≠ []) (hext : IsExtension ext)
    (h : ∀ c ∈ front ++ '.' :: ext, c.isAlphanum ∨ c = '.') : Storable (front ++ '.' :: ext) := by
  obtain ⟨hne, halnum⟩ := hext
  have hlast : (front ++ '.' :: ext).getLast? = some (ext.getLast hne) := by
    rw [List.append_cons, List.getLast?_append_of_ne_nil _ hne, List.getLast?_eq_getLast_of_ne_nil]
  have hend := halnum _ (List.getLast_mem hne)
  refine ⟨by simp, fun hdot => ?_, ⟨?_, ?_⟩, fun c hc => not_mem_of_forbidden (h c hc)⟩
  · have hlen := congrArg List.length hdot
    have hpos := List.length_pos_iff.mpr hfront
    simp only [List.length_append, List.length_cons, List.length_nil, dot] at hlen
    omega
  · rw [hlast]
    exact fun heq => ne_of_isAlphanum hend (by decide) (Option.some.inj heq)
  · rw [hlast]
    exact fun heq => ne_of_isAlphanum hend (by decide) (Option.some.inj heq)

/-- The stem is what remains without the last extension. -/
theorem stem_withExtensions {ext : Str} (hne : name ≠ []) (hname : ∀ c ∈ name, c.isAlphanum)
    (hexts : ∀ ext ∈ exts, IsExtension ext) (hext : IsExtension ext) :
    fileName .windows (withExtensions name (exts ++ [ext])) =
        withExtensions name (exts ++ [ext]) ∧
      Storable (withExtensions name (exts ++ [ext])) ∧
      stem .windows (withExtensions name (exts ++ [ext])) = withExtensions name exts := by
  have hall : ∀ e ∈ exts ++ [ext], IsExtension e := by
    intro e he
    obtain he | he := List.mem_append.mp he
    · exact hexts e he
    · rwa [List.mem_singleton.mp he]
  have hchars := fun c hc => mem_withExtensions (c := c) hname hall hc
  have hfile := fileName_of_not_any (not_any_isFileSeparator hchars)
  have hfront : withExtensions name exts ≠ [] := by
    intro hnil
    exact hne (List.append_eq_nil_iff.mp hnil).1
  rw [withExtensions_concat] at hchars hfile ⊢
  have hstorable := storable_of_extension hfront hext hchars
  refine ⟨hfile, hstorable, stem_of_dot hfile hfront ?_ ?_⟩
  · exact fun hdot => ne_of_isAlphanum (hext.2 '.' hdot) (by decide) rfl
  · rw [hfile]
    intro hdots
    exact hstorable.last_ne.1 (by rw [hdots]; rfl)

/-- A short device name with extensions is reserved if and only if there is one extension. -/
theorem isReservedBy_withExtensions_iff (lookup : Lookup) (d name : Str) (exts : List Str)
    (hd : d ∈ deviceNames) (hlen : d.length ≤ 4) (hname : asciiUpper name = d)
    (hne : exts ≠ []) (hexts : ∀ ext ∈ exts, IsExtension ext) :
    isReservedBy lookup .windows (withExtensions name exts) = true ↔ exts.length = 1 := by
  have halnum := isAlphanum_of_short hd hlen hname
  have hlength : name.length = d.length := by rw [← hname, length_asciiUpper]
  have hnonempty : name ≠ [] := by
    rintro rfl
    have hge := three_le_of_mem_deviceNames hd
    rw [← hlength] at hge
    exact absurd hge (by decide)
  obtain ⟨front, ext, rfl⟩ := (List.eq_nil_or_concat exts).resolve_left hne
  rw [List.concat_eq_append] at hexts ⊢
  have hext : IsExtension ext := hexts ext (by simp)
  obtain ⟨hfile, hstorable, hstem⟩ := stem_withExtensions hnonempty halnum
    (fun e he => hexts e (List.mem_append_left _ he)) hext
  rw [isReservedBy_iff lookup (by rwa [hfile]), hfile, hstem]
  cases front with
  | nil =>
      rw [withExtensions, List.flatMap_nil, List.append_nil, hname]
      exact iff_of_true ⟨hd, by omega⟩ rfl
  | cons first front =>
      refine iff_of_false (fun h => dot_not_mem_of_mem_deviceNames h.1 ?_) (by simp)
      -- what is looked up has the dot of the first extension in it
      have hdot : '.' ∈ withExtensions name (first :: front) := by simp [withExtensions]
      exact List.mem_map_of_mem (f := asciiUpperChar) hdot

theorem isReservedBy_withExtensions_con :
    isReservedBy .stdBinarySearch .windows (withExtensions "con".toList ["txt".toList]) = true :=
  (isReservedBy_withExtensions_iff .stdBinarySearch "CON".toList "con".toList ["txt".toList]
    (by decide) (by decide) (by decide) (by decide)
    (fun ext hext => by
      obtain rfl := List.mem_singleton.mp hext
      exact ⟨by decide, List.all_eq_true.mp (by decide)⟩)).mpr rfl

/-- A second extension hides the device. -/
theorem not_isReservedBy_withExtensions_nul :
    ¬ ∀ (lookup : Lookup) (d name : Str) (exts : List Str), d ∈ deviceNames → d.length ≤ 4 →
      asciiUpper name = d → exts ≠ [] → (∀ ext ∈ exts, IsExtension ext) →
      isReservedBy lookup .windows (withExtensions name exts) = true := by
  intro h
  have hfound := h .contains "NUL".toList "nul".toList ["a".toList, "b".toList] (by decide)
    (by decide) (by decide) (by decide) (fun ext hext => by
      obtain rfl | rfl := List.mem_pair.mp hext
      · exact ⟨by decide, List.all_eq_true.mp (by decide)⟩
      · exact ⟨by decide, List.all_eq_true.mp (by decide)⟩)
  exact absurd hfound (by decide)

end Extensions

end Ffilesystem
