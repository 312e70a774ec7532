import Ffilesystem.OsString

/-!
# The two Fortran interfaces to `real_path`

A Fortran string has a length and no terminator, and is filled up with blanks.
Where the compiler has the C descriptors for such strings, `realpath` passes
them to `realpath_cfi`, which trims the path and reports errors as negative
numbers. Otherwise it adds a terminator to the path and calls `fs_realpath`,
which writes a C string.

Both call one `real_path`. It is a parameter here, with the results it may have
and with what it reads of its argument.
-/

namespace Ffilesystem

/-- Copy a text and a terminator into a buffer, unless there is no room for both. -/
def fsStr2char (s result : Str) (bufferSize : Nat) : Nat × Str :=
  if s.length ≥ bufferSize then (0, result)
  else (s.length, s ++ '\x00' :: result.drop (s.length + 1))

/-- The argument is converted to a `std::string_view`, up to its terminator. -/
def fsRealpath (realPath : Str → Str) (path result : Str) (bufferSize : Nat) : Nat × Str :=
  fsStr2char (realPath (cStr path)) result bufferSize

inductive CfiType
  | char
  | other
  deriving DecidableEq, Repr

/-- A C descriptor of a Fortran string. -/
structure CfiDesc where
  /-- The characters at the base address, unless it is null. -/
  baseAddr : Option Str
  elemLen : Nat
  rank : Nat
  type : CfiType
  length_eq : ∀ s ∈ baseAddr, s.length = elemLen

def CfiDesc.scalar (s : Str) : CfiDesc where
  baseAddr := some s
  elemLen := s.length
  rank := 0
  type := .char
  length_eq := fun _ h => congrArg List.length (Option.some.inj h).symm

/-- "Trim trailing spaces from the input string, if any." -/
def trimBlanks (s : Str) : Str := s.rdropWhile (· = ' ')

/-- The return code, and the characters of the output if anything is written to them. -/
def realpathCfi (realPath : Str → Str) : Option CfiDesc → Option CfiDesc → Int × Option Str
  | some ⟨some inPtr, _, inRank, inType, _⟩, some ⟨some _, Lout, outRank, outType, _⟩ =>
      if inRank ≠ 0 ∨ outRank ≠ 0 then (-2, none)
      else if inType ≠ .char ∨ outType ≠ .char then (-3, none)
      else if Lout = 0 then (-4, none)
      else
        let inValue := trimBlanks inPtr
        let blanks := List.replicate Lout ' '
        if inValue = [] then (0, some blanks)
        else
          let outValue := realPath inValue
          if outValue = [] then (0, some blanks)
          else if outValue.length > Lout then (-5, some blanks)
          else (outValue.length, some (outValue ++ blanks.drop outValue.length))
  | _, _ => (-1, none)

/-- The lines behind the call, which may have written to the result `r`. -/
def realpathResult (r : Str) (call : Int × Option Str) : Str :=
  let rc := call.1
  let r := call.2.getD r
  if rc ≤ 0 then []
  else if rc < r.length then r.take rc.toNat
  else r

/-- `realpath` with `HAVE_ISO_FORTRAN_BINDING`. -/
def realpathWithBinding (maxPath : Nat) (realPath : Str → Str) (path : Str) : Str :=
  let r := List.replicate maxPath ' '
  realpathResult r (realpathCfi realPath (some (.scalar path)) (some (.scalar r)))

def realpathWithoutBinding (maxPath : Nat) (realPath : Str → Str) (path : Str) : Str :=
  let cbuf := List.replicate (maxPath + 1) ' '
  let (N, cbuf) := fsRealpath realPath (path ++ ['\x00']) cbuf cbuf.length
  cbuf.take N

/-- The results that `real_path` may have. -/
def Fits (maxPath : Nat) (realPath : Str → Str) : Prop := ∀ s, (realPath s).length ≤ maxPath

/-- `real_path` hands a C string on, and nothing has the empty name. -/
structure ReadsCString (realPath : Str → Str) : Prop where
  cStr : ∀ s, realPath s = realPath (cStr s)
  nil : realPath [] = []

section Backend

variable (env : OsEnv)

/-- The C backend is such a `real_path`, with the system's calls behind it. -/
theorem fits_realPath : Fits env.maxPath env.realPath := by
  intro s
  rw [OsEnv.realPath]
  split
  · rename_i text _
    refine Nat.le_trans (List.takeWhile_prefix _).length_le ?_
    rw [terminatedIn]
    exact List.length_take_le _ _
  · exact Nat.zero_le _

theorem readsCString_realPath (h : env.realpath [] = none) : ReadsCString env.realPath := by
  refine ⟨fun s => ?_, ?_⟩
  · rw [OsEnv.realPath, OsEnv.realPath, cStr_of_not_mem (nul_not_mem_cStr s)]
  · rw [OsEnv.realPath, cStr_nil, h]

end Backend

section Results

variable {maxPath : Nat} {realPath : Str → Str}

/-- A buffer of one character more than the longest path has room for every result. -/
theorem realpathWithoutBinding_eq (h : Fits maxPath realPath) (path : Str) :
    realpathWithoutBinding maxPath realPath path = realPath (cStr path) := by
  have hargument : cStr (path ++ ['\x00']) = cStr path := by
    by_cases hmem : '\x00' ∈ path
    · exact cStr_append_of_mem hmem _
    · rw [cStr_append_of_not_mem hmem, cStr_cons_nul, List.append_nil, cStr_of_not_mem hmem]
  have hroom : ¬ (realPath (cStr path)).length ≥ (List.replicate (maxPath + 1) ' ').length := by
    have hle := h (cStr path)
    rw [List.length_replicate]
    omega
  rw [realpathWithoutBinding, fsRealpath, hargument, fsStr2char, if_neg hroom]
  exact List.take_left

theorem realpathResult_of_nonpos {rc : Int} (hrc : rc ≤ 0) (r : Str) (written : Option Str) :
    realpathResult r (rc, written) = [] := if_pos hrc

/-- A result is cut out of the blanks behind it, or fills the whole variable. -/
theorem realpathResult_of_written {out : Str} (hne : out ≠ []) (r : Str) :
    realpathResult r (out.length, some (out ++ (List.replicate maxPath ' ').drop out.length)) =
      out := by
  have hpos := List.length_pos_iff.mpr hne
  have hrc : ¬ ((out.length : Int) ≤ 0) := by omega
  rw [realpathResult]
  dsimp only
  rw [if_neg hrc, Option.getD_some]
  split
  · rw [Int.toNat_natCast, List.take_left]
  · rename_i hlen
    have hnone : (List.replicate maxPath ' ').drop out.length = [] := by
      rw [List.length_append, List.length_drop, List.length_replicate] at hlen
      rw [List.drop_eq_nil_iff, List.length_replicate]
      omega
    rw [hnone, List.append_nil]

/-- The descriptors give the result for the trimmed path, if there is any path left. -/
theorem realpathWithBinding_eq (h : Fits maxPath realPath) (path : Str) :
    realpathWithBinding maxPath realPath path =
      if trimBlanks path = [] then [] else realPath (trimBlanks path) := by
  have hle := h (trimBlanks path)
  have hrank : ¬ ((0 : Nat) ≠ 0 ∨ (0 : Nat) ≠ 0) := by decide
  have htype : ¬ (CfiType.char ≠ .char ∨ CfiType.char ≠ .char) := by decide
  rw [realpathWithBinding, CfiDesc.scalar, CfiDesc.scalar, realpathCfi, if_neg hrank,
    if_neg htype, List.length_replicate]
  dsimp only
  by_cases hzero : maxPath = 0
  · have hnil : realPath (trimBlanks path) = [] :=
      List.length_eq_zero_iff.mp (by omega)
    rw [if_pos hzero, hnil, ite_self]
    exact realpathResult_of_nonpos (by decide) _ _
  · rw [if_neg hzero]
    by_cases hblank : trimBlanks path = []
    · rw [if_pos hblank, if_pos hblank]
      exact realpathResult_of_nonpos (by decide) _ _
    · rw [if_neg hblank, if_neg hblank]
      generalize realPath (trimBlanks path) = out at hle
      by_cases hnil : out = []
      · rw [if_pos hnil, hnil]
        exact realpathResult_of_nonpos (by decide) _ _
      · rw [if_neg hnil, if_neg (by omega)]
        exact realpathResult_of_written hnil _

end Results

section Agreement

variable {path : Str}

theorem trimBlanks_eq_self_iff : trimBlanks path = path ↔ path.getLast? ≠ some ' ' := by
  rw [trimBlanks, List.rdropWhile_eq_self_iff]
  by_cases hnil : path = []
  · simp [hnil]
  · simp [hnil, List.getLast?_eq_getLast_of_ne_nil hnil]

theorem trimBlanks_append (path : Str) :
    trimBlanks path ++ path.rtakeWhile (· = ' ') = path := List.rdropWhile_append_rtakeWhile

theorem nul_mem_trimBlanks_iff : '\x00' ∈ trimBlanks path ↔ '\x00' ∈ path := by
  refine ⟨fun h => (List.rdropWhile_prefix _ _).subset h, fun h => ?_⟩
  rw [← trimBlanks_append path] at h
  obtain h | h := List.mem_append.mp h
  · exact h
  · have hblank := List.mem_rtakeWhile_imp h
    exact absurd (of_decide_eq_true hblank) (by decide)

theorem cStr_trimBlanks_of_nul_mem (h : '\x00' ∈ path) :
    cStr (trimBlanks path) = cStr path := by
  conv_rhs => rw [← trimBlanks_append path]
  exact (cStr_append_of_mem (nul_mem_trimBlanks_iff.mpr h) _).symm

/-- As a C string the trimmed path is the path, unless the blanks come before its end. -/
theorem cStr_trimBlanks_eq_iff :
    cStr (trimBlanks path) = cStr path ↔
      path.getLast? ≠ some ' ' ∨ '\x00' ∈ path := by
  by_cases hnul : '\x00' ∈ path
  · exact iff_of_true (cStr_trimBlanks_of_nul_mem hnul) (.inr hnul)
  · rw [or_iff_left hnul, cStr_of_not_mem hnul,
      cStr_of_not_mem (fun h => hnul (nul_mem_trimBlanks_iff.mp h))]
    exact trimBlanks_eq_self_iff

/-- The trimmed path is the path as a C string, and there is any. -/
theorem trimBlanks_eq_cStr_iff :
    (trimBlanks path ≠ [] ∧ trimBlanks path = cStr path) ↔
      path ≠ [] ∧ path.getLast? ≠ some ' ' ∧ '\x00' ∉ path := by
  by_cases hnul : '\x00' ∈ path
  · refine iff_of_false (fun h => ?_) (fun h => h.2.2 hnul)
    have hmem := nul_mem_trimBlanks_iff.mpr hnul
    rw [h.2] at hmem
    exact nul_not_mem_cStr path hmem
  · rw [cStr_of_not_mem hnul, trimBlanks_eq_self_iff]
    constructor
    · rintro ⟨hne, hlast⟩
      rw [trimBlanks_eq_self_iff.mpr hlast] at hne
      exact ⟨hne, hlast, hnul⟩
    · rintro ⟨hne, hlast, -⟩
      rw [trimBlanks_eq_self_iff.mpr hlast]
      exact ⟨hne, hlast⟩

def leadsToRoot (p : Str) (s : Str) : Str := if s = p then ['/'] else []

theorem fits_leadsToRoot {maxPath : Nat} (h : 0 < maxPath) (p : Str) :
    Fits maxPath (leadsToRoot p) := by
  intro s
  rw [leadsToRoot]
  split
  · exact h
  · exact Nat.zero_le _

theorem of_leadsToRoot {p s t : Str}
    (h : (if t = [] then [] else leadsToRoot p s) = leadsToRoot p p) : t ≠ [] ∧ s = p := by
  rw [leadsToRoot, leadsToRoot, if_pos rfl] at h
  split at h
  · cases h
  · rename_i hne
    refine ⟨hne, ?_⟩
    by_contra hnot
    rw [if_neg hnot] at h
    cases h

theorem readsCString_leadsToRoot {p : Str} (hp : p ≠ []) :
    ReadsCString (fun s => leadsToRoot p (cStr s)) := by
  refine ⟨fun s => ?_, if_neg hp.symm⟩
  rw [cStr_of_not_mem (nul_not_mem_cStr s)]

/-- The two interfaces give the same string, for each `real_path` of the kind `P`. -/
def Agree (maxPath : Nat) (P : (Str → Str) → Prop) (path : Str) : Prop :=
  ∀ realPath, Fits maxPath realPath → P realPath →
    realpathWithBinding maxPath realPath path = realpathWithoutBinding maxPath realPath path

/-- Whatever `real_path` does with its argument. -/
theorem agree_any_iff {maxPath : Nat} (h : 0 < maxPath) (path : Str) :
    Agree maxPath (fun _ => True) path ↔
      path ≠ [] ∧ path.getLast? ≠ some ' ' ∧ '\x00' ∉ path := by
  rw [← trimBlanks_eq_cStr_iff]
  constructor
  · intro hagree
    have hfits := fits_leadsToRoot h (cStr path)
    have heq := hagree _ hfits trivial
    rw [realpathWithBinding_eq hfits, realpathWithoutBinding_eq hfits] at heq
    exact of_leadsToRoot heq
  · rintro ⟨hne, heq⟩ realPath hfits -
    rw [realpathWithBinding_eq hfits, realpathWithoutBinding_eq hfits, if_neg hne, heq]

/-- A `real_path` that reads a C string does not see what is behind the terminator. -/
theorem agree_readsCString_iff {maxPath : Nat} (h : 0 < maxPath) (path : Str) :
    Agree maxPath ReadsCString path ↔ path.getLast? ≠ some ' ' ∨ '\x00' ∈ path := by
  rw [← cStr_trimBlanks_eq_iff]
  constructor
  · intro hagree
    by_cases hnil : cStr path = []
    · -- nothing is left of the trimmed path either
      have hpre : cStr (trimBlanks path) <+: cStr path := by
        by_cases hnul : '\x00' ∈ path
        · exact ⟨[], by rw [cStr_trimBlanks_of_nul_mem hnul, List.append_nil]⟩
        · rw [cStr_of_not_mem hnul, cStr_of_not_mem (fun h => hnul (nul_mem_trimBlanks_iff.mp h))]
          exact List.rdropWhile_prefix _ _
      rw [hnil] at hpre ⊢
      exact List.prefix_nil.mp hpre
    · have hreads := readsCString_leadsToRoot hnil
      have hfits : Fits maxPath (fun s => leadsToRoot (cStr path) (cStr s)) :=
        fun s => fits_leadsToRoot h (cStr path) (cStr s)
      have heq := hagree _ hfits hreads
      rw [realpathWithBinding_eq hfits, realpathWithoutBinding_eq hfits] at heq
      rw [cStr_of_not_mem (nul_not_mem_cStr path)] at heq
      exact (of_leadsToRoot heq).2
  · intro heq realPath hfits hreads
    rw [realpathWithBinding_eq hfits, realpathWithoutBinding_eq hfits, ← heq,
      ← hreads.cStr (trimBlanks path)]
    split
    · rename_i hnil
      rw [hnil, hreads.nil]
    · rfl

/-- For the `real_path` of the library the two interfaces agree on the paths that do not end
in a blank, and on those with a null character. With any function in its place they agree
where the path, besides, is not empty and has no null character in it. -/
theorem agree_iff {maxPath : Nat} (h : 0 < maxPath) (path : Str) :
    (Agree maxPath ReadsCString path ↔ path.getLast? ≠ some ' ' ∨ '\x00' ∈ path) ∧
      (Agree maxPath (fun _ => True) path ↔
        path ≠ [] ∧ path.getLast? ≠ some ' ' ∧ '\x00' ∉ path) :=
  ⟨agree_readsCString_iff h path, agree_any_iff h path⟩

theorem agree_of_no_blank : Agree 4096 ReadsCString "foo".toList :=
  (agree_iff (by decide) "foo".toList).1.mpr (.inl (by decide))

/-- A blank at the end is trimmed by one of the interfaces only. -/
theorem not_agree_of_blank :
    ¬ ∀ (maxPath : Nat) (path : Str), 0 < maxPath → Agree maxPath ReadsCString path := by
  intro h
  have hfits : Fits 1 (fun s => leadsToRoot "foo ".toList (cStr s)) :=
    fun s => fits_leadsToRoot Nat.one_pos _ (cStr s)
  have heq := h 1 "foo ".toList Nat.one_pos _ hfits (readsCString_leadsToRoot (by decide))
  rw [realpathWithBinding_eq hfits, realpathWithoutBinding_eq hfits] at heq
  exact absurd heq (by decide)

end Agreement

end Ffilesystem
