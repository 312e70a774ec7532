import Ffilesystem.Resolve

/-!
# Strings that the system writes

Five functions return text that the operating system wrote into a buffer. Each
of them sizes the buffer by the convention of its call and then cuts it by
another one: at the first null character, at the end of the C string, or at the
length that the call returned.

A name that the system holds has no null character in it, and is a value of
`CText`. Behind a terminator the buffer holds whatever the call left there.
-/

namespace Ffilesystem

/-- The text of a C string. -/
abbrev CText := { s : Str // '\x00' ∉ s }

/-- The conversions of `cygwin_conv_path`. -/
inductive Conversion
  | winToPosix
  | posixToWin
  deriving DecidableEq, Repr

/-- What the system answers, call by call. -/
structure OsEnv where
  /-- Whether `__CYGWIN__` is defined. -/
  cygwin : Bool
  /-- What a path is converted to. Without a result the size asked for is not positive. -/
  convert : Conversion → Str → Option CText
  /-- Whether the second call of the conversion, which writes the result, succeeds. -/
  convertAgain : Conversion → Str → Bool
  getcwd : Option CText
  realpath : Str → Option CText
  /-- The size of a link as `stat` reports it. -/
  linkSize : Str → Option Nat
  /-- The target of a link. -/
  readlink : Str → Option CText
  maxPath : Nat
  /-- What a call leaves in a buffer behind the terminator of its result. -/
  residue : Str → Str

/-- A buffer after a call has written a terminated string to it. It has the size
that it was made with. -/
def terminatedIn (size : Nat) (text residue : Str) : Str :=
  (text ++ '\x00' :: residue ++ List.replicate size '\x00').take size

/-- A buffer after a call has written as much of a text as fits, and no terminator. -/
def unterminatedIn (size : Nat) (text : Str) : Str :=
  text.take size ++ List.replicate (size - text.length) '\x00'

/-- Remove all content from the first null character on. -/
def trim (s : Str) : Str :=
  match Scan.find s '\x00' 0 with
  | some i => s.take i
  | none => s

namespace OsEnv

variable (env : OsEnv)

def fsConvertPath (what : Conversion) (path : Str) : Str :=
  let cpath := cStr path
  if env.cygwin then
    match env.convert what cpath with
    | some text =>
        let L := text.1.length + 1
        if env.convertAgain what cpath then terminatedIn L text.1 (env.residue text.1) else []
    | none => []
  else []

def toCygpath (path : Str) : Str := env.fsConvertPath .winToPosix path

def toWinpath (path : Str) : Str := env.fsConvertPath .posixToWin path

/-- `get_cwd`. The call is told the size of the buffer and fails where the
result does not fit. -/
def getCwd : Str :=
  match env.getcwd with
  | some cwd =>
      if cwd.1.length < env.maxPath then
        trim (terminatedIn env.maxPath cwd.1 (env.residue cwd.1))
      else []
  | none => []

def realPath (path : Str) : Str :=
  match env.realpath (cStr path) with
  | some text => cStr (terminatedIn env.maxPath text.1 (env.residue text.1))
  | none => []

def readSymlink (path : Str) : Str :=
  match env.linkSize (cStr path) with
  | none => []
  | some s =>
      let L := if s = 0 then env.maxPath else s
      match env.readlink (cStr path) with
      | some target =>
          let p := unterminatedIn (L + 1) target.1
          let Lr := min target.1.length (L + 1)
          if Lr = L then p.take Lr else []
      | none => []

end OsEnv

section Buffers

theorem trim_eq_cStr (s : Str) : trim s = cStr s := by
  cases hfind : Scan.find s '\x00' 0 with
  | none =>
      have hfree := Scan.find_eq_none_iff.mp hfind
      rw [List.drop_zero] at hfree
      rw [trim, hfind, cStr_of_not_mem hfree]
  | some i =>
      obtain ⟨-, -, hfree, hcut⟩ := Scan.find_eq_some hfind
      rw [List.drop_zero, Nat.sub_zero, Scan.substr, List.drop_zero] at hcut
      rw [Nat.sub_zero, Scan.substr, List.drop_zero] at hfree
      have hcstr : cStr s = s.take i := by
        conv_lhs => rw [hcut]
        rw [cStr_append_of_not_mem hfree, cStr_cons_nul, List.append_nil]
      rw [trim, hfind, hcstr]

/-- A buffer of just the size that was asked for keeps the terminator. -/
theorem terminatedIn_exact (text residue : Str) :
    terminatedIn (text.length + 1) text residue = text ++ ['\x00'] := by
  rw [terminatedIn, List.append_assoc, List.take_append, List.take_of_length_le (Nat.le_succ _),
    Nat.add_sub_cancel_left]
  rfl

/-- A larger buffer holds the text up to its first null character. -/
theorem cStr_terminatedIn (text : CText) {size : Nat} (h : text.1.length < size)
    (residue : Str) : cStr (terminatedIn size text.1 residue) = text.1 := by
  obtain ⟨k, hk⟩ := Nat.exists_eq_add_of_lt h
  rw [terminatedIn, List.append_assoc, List.take_append, List.take_of_length_le (by omega), hk,
    show text.1.length + k + 1 - text.1.length = k + 1 by omega, List.cons_append,
    List.take_succ_cons, cStr_append_of_not_mem text.2, cStr_cons_nul, List.append_nil]

/-- As many characters as the call returned are all of the text. -/
theorem take_unterminatedIn {size n : Nat} {text : Str} (h : n ≤ text.length) (hn : n ≤ size) :
    (unterminatedIn size text).take n = text.take n := by
  rw [unterminatedIn, List.take_append_of_le_length, List.take_take, Nat.min_eq_left hn]
  rw [List.length_take]
  omega

end Buffers

namespace OsEnv

variable (env : OsEnv)

/-- Whether a path is converted at all. -/
def Converts (what : Conversion) (path : Str) : Prop :=
  env.cygwin ∧ (env.convert what (cStr path)).isSome ∧ env.convertAgain what (cStr path)

/-- The buffer of a conversion is returned with the terminator in it. -/
theorem nul_mem_fsConvertPath_iff (what : Conversion) (path : Str) :
    '\x00' ∈ env.fsConvertPath what path ↔ env.Converts what path := by
  rw [fsConvertPath, Converts]
  cases env.cygwin with
  | false => exact iff_of_false List.not_mem_nil (fun h => Bool.noConfusion h.1)
  | true =>
      rw [if_pos rfl]
      cases env.convert what (cStr path) with
      | none => exact iff_of_false List.not_mem_nil (fun h => Bool.noConfusion h.2.1)
      | some text =>
          dsimp only
          rw [terminatedIn_exact]
          split
          · rename_i hagain
            exact iff_of_true (by simp) ⟨rfl, rfl, hagain⟩
          · rename_i hagain
            exact iff_of_false List.not_mem_nil (fun h => hagain h.2.2)

theorem nul_not_mem_getCwd : '\x00' ∉ env.getCwd := by
  rw [getCwd]
  split
  · split
    · rw [trim_eq_cStr]
      exact nul_not_mem_cStr _
    · exact List.not_mem_nil
  · exact List.not_mem_nil

theorem nul_not_mem_realPath (path : Str) : '\x00' ∉ env.realPath path := by
  rw [realPath]
  split
  · exact nul_not_mem_cStr _
  · exact List.not_mem_nil

/-- A link is returned only in the length that the call reported, without the
character that the buffer has in excess. -/
theorem nul_not_mem_readSymlink (path : Str) : '\x00' ∉ env.readSymlink path := by
  rw [readSymlink]
  split
  · exact List.not_mem_nil
  · rename_i s hsize
    dsimp only
    generalize (if s = 0 then env.maxPath else s) = L
    split
    · rename_i target htarget
      split
      · rename_i hlen
        rw [hlen, take_unterminatedIn (by omega) (Nat.le_succ L)]
        exact fun hmem => target.2 (List.mem_of_mem_take hmem)
      · exact List.not_mem_nil
    · exact List.not_mem_nil

/-- The five functions return no null character, except that a conversion which
succeeds always does. -/
theorem nul_not_mem_iff (path : Str) :
    ('\x00' ∉ env.toCygpath path ∧ '\x00' ∉ env.toWinpath path ∧ '\x00' ∉ env.getCwd ∧
        '\x00' ∉ env.realPath path ∧ '\x00' ∉ env.readSymlink path) ↔
      ∀ what, ¬ env.Converts what path := by
  rw [toCygpath, toWinpath, nul_mem_fsConvertPath_iff, nul_mem_fsConvertPath_iff]
  constructor
  · rintro ⟨hcyg, hwin, -⟩ what
    cases what with
    | winToPosix => exact hcyg
    | posixToWin => exact hwin
  · intro h
    exact ⟨h .winToPosix, h .posixToWin, env.nul_not_mem_getCwd, env.nul_not_mem_realPath path,
      env.nul_not_mem_readSymlink path⟩

/-- A drive converted on Cygwin keeps its terminator. -/
theorem nul_mem_toCygpath :
    ¬ ∀ (env : OsEnv) (path : Str),
      '\x00' ∉ env.toCygpath path ∧ '\x00' ∉ env.toWinpath path ∧ '\x00' ∉ env.getCwd ∧
        '\x00' ∉ env.realPath path ∧ '\x00' ∉ env.readSymlink path := by
  intro h
  let env : OsEnv :=
    { cygwin := true
      convert := fun _ _ => some ⟨"/c".toList, by decide⟩
      convertAgain := fun _ _ => true
      getcwd := some ⟨"/".toList, by decide⟩
      realpath := fun _ => none
      linkSize := fun _ => none
      readlink := fun _ => none
      maxPath := 4096
      residue := fun _ => [] }
  exact (h env "C:".toList).1
    ((env.nul_mem_fsConvertPath_iff .winToPosix _).mpr ⟨rfl, rfl, rfl⟩)

/-- The system behind the calls, and buffers that its paths fit into. -/
structure Reports (sys : System) : Prop where
  getcwd : env.getcwd = some ⟨absString sys.cwd, nul_not_mem_absString sys.cwd⟩
  realpath : ∀ path, env.realpath (cStr path) =
    match sys.stat path with
    | .ok spot => some ⟨absString spot.path, nul_not_mem_absString spot.path⟩
    | .error _ => none
  cwd_lt : (absString sys.cwd).length < env.maxPath
  realpath_lt : ∀ path spot, sys.stat path = .ok spot →
    (absString spot.path).length < env.maxPath

variable {env}

/-- The buffers do not show: what the functions return is what the system holds. -/
theorem Reports.getCwd_eq {sys : System} (h : env.Reports sys) : env.getCwd = sys.getCwd := by
  rw [OsEnv.getCwd, h.getcwd]
  dsimp only
  rw [if_pos h.cwd_lt, trim_eq_cStr]
  exact cStr_terminatedIn ⟨_, nul_not_mem_absString sys.cwd⟩ h.cwd_lt _

theorem Reports.realPath_eq {sys : System} (h : env.Reports sys) (path : Str) :
    env.realPath path = sys.realPath path := by
  rw [OsEnv.realPath, h.realpath, System.realPath]
  cases hstat : sys.stat path with
  | error e => rfl
  | ok spot =>
      exact cStr_terminatedIn ⟨_, nul_not_mem_absString spot.path⟩
        (h.realpath_lt path spot hstat) _

end OsEnv

end Ffilesystem
