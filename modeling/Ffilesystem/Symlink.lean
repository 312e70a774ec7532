import Ffilesystem.Inquire
import Ffilesystem.OsString

/-!
# The target of a link in the C backend

`read_symlink` asks for the size of a link first and makes a buffer of one
character more. A size of zero stands for a link of unknown length, and the
buffer then has room for the longest path. In both cases the target is returned
only if the call that reads it says that it has just the expected length.
-/

namespace Ffilesystem

/-- What the calls that read the size of a link itself answer for a C string. -/
structure LinkEnv where
  /-- Whether `HAVE_STATX` is defined. -/
  haveStatx : Bool
  statx : Str → Except Errno Nat
  lstat : Str → Except Errno Nat

namespace LinkEnv

variable (calls : LinkEnv)

def lstatLength (cpath : Str) : Option Nat :=
  match calls.lstat cpath with
  | .ok s => some s
  | .error _ => none

def fsSymlinkLength (cpath : Str) : Option Nat :=
  if calls.haveStatx then
    match calls.statx cpath with
    | .ok x => some x
    | .error e => if e ≠ .nosys then none else calls.lstatLength cpath
  else calls.lstatLength cpath

/-- The call that decides about a link reports the size `s`. -/
abbrev Reports (cpath : Str) (s : Nat) : Prop :=
  Decides calls.haveStatx (calls.statx cpath) (calls.lstat cpath) s

theorem fsSymlinkLength_of_reports {cpath : Str} {s : Nat} (h : calls.Reports cpath s) :
    calls.fsSymlinkLength cpath = some s := by
  rw [fsSymlinkLength]
  cases h with
  | statx hhave hstatx => rw [if_pos hhave, hstatx]
  | fallback hhave hnosys hlstat =>
      rw [if_pos hhave, hnosys]
      dsimp only
      rw [if_neg (not_not.mpr rfl), lstatLength, hlstat]
  | older hhave hlstat =>
      rw [if_neg (by rw [hhave]; exact Bool.false_ne_true), lstatLength, hlstat]

end LinkEnv

namespace OsEnv

/-- The system in which the sizes of links are those that the calls report. -/
def withLinks (env : OsEnv) (calls : LinkEnv) : OsEnv :=
  { env with linkSize := calls.fsSymlinkLength }

section Target

variable {env : OsEnv} {calls : LinkEnv} {path : Str} {t : CText} {s : Nat}

theorem readSymlink_of_reports (hsize : calls.Reports (cStr path) s)
    (htarget : env.readlink (cStr path) = some t) :
    (env.withLinks calls).readSymlink path =
      if t.1.length = (if s = 0 then env.maxPath else s) then t.1 else [] := by
  have hlink : (env.withLinks calls).linkSize (cStr path) = some s :=
    calls.fsSymlinkLength_of_reports hsize
  have hread : (env.withLinks calls).readlink (cStr path) = some t := htarget
  have hmax : (env.withLinks calls).maxPath = env.maxPath := rfl
  rw [readSymlink, hlink]
  dsimp only
  rw [hread, hmax]
  dsimp only
  generalize (if s = 0 then env.maxPath else s) = L
  by_cases hlen : t.1.length = L
  · have hall : min t.1.length (L + 1) = L := by omega
    rw [if_pos hlen, if_pos hall, hall, take_unterminatedIn (by omega) (Nat.le_succ L), ← hlen,
      List.take_length]
  · rw [if_neg hlen, if_neg (by omega)]

/-- A target is returned if and only if its length was reported, or is the length that is
expected instead. -/
theorem readSymlink_eq_target_iff (env : OsEnv) (calls : LinkEnv) (path : Str) (t : CText)
    (s : Nat) (hsize : calls.Reports (cStr path) s)
    (htarget : env.readlink (cStr path) = some t) (hs : s = t.1.length ∨ s = 0)
    (hne : t.1 ≠ []) :
    (env.withLinks calls).readSymlink path = t.1 ↔ s ≠ 0 ∨ t.1.length = env.maxPath := by
  rw [readSymlink_of_reports hsize htarget, ite_eq_left_iff]
  by_cases hzero : s = 0
  · rw [if_pos hzero, or_iff_right (not_not.mpr hzero)]
    constructor
    · intro h
      by_contra hlen
      exact hne (h hlen).symm
    · exact fun hlen hnot => absurd hlen hnot
  · rw [if_neg hzero]
    exact iff_of_true (fun hlen => absurd (hs.resolve_right hzero).symm hlen) (.inl hzero)

def linksToBin : OsEnv where
  cygwin := false
  convert := fun _ _ => none
  convertAgain := fun _ _ => false
  getcwd := none
  realpath := fun _ => none
  linkSize := fun _ => none
  readlink := fun _ => some ⟨"/bin/x".toList, by decide⟩
  maxPath := 4096
  residue := fun _ => []

/-- The kernel reports the size `s` of every link. -/
def linksOfSize (s : Nat) : LinkEnv where
  haveStatx := true
  statx := fun _ => .ok s
  lstat := fun _ => .error .nosys

theorem readSymlink_eq_target_of_size :
    (linksToBin.withLinks (linksOfSize 6)).readSymlink "a".toList = "/bin/x".toList :=
  (readSymlink_eq_target_iff linksToBin (linksOfSize 6) "a".toList ⟨"/bin/x".toList, by decide⟩ 6
    (.statx rfl rfl) rfl (.inl rfl) (by decide)).mpr (.inl (by decide))

/-- The links below `/proc` have no size. -/
theorem not_readSymlink_eq_target_of_zero :
    ¬ ∀ (env : OsEnv) (calls : LinkEnv) (path : Str) (t : CText) (s : Nat),
      calls.Reports (cStr path) s → env.readlink (cStr path) = some t →
      s = t.1.length ∨ s = 0 → t.1 ≠ [] → t.1.length ≤ env.maxPath →
      (env.withLinks calls).readSymlink path = t.1 := by
  intro h
  have hreports : (linksOfSize 0).Reports (cStr "/proc/self/exe".toList) 0 := .statx rfl rfl
  have hread := h linksToBin (linksOfSize 0) "/proc/self/exe".toList
    ⟨"/bin/x".toList, by decide⟩ 0 hreports rfl (.inr rfl) (by decide) (by decide)
  rw [readSymlink_of_reports hreports (t := ⟨"/bin/x".toList, by decide⟩) rfl] at hread
  exact absurd hread (by decide)

end Target

end OsEnv

end Ffilesystem
