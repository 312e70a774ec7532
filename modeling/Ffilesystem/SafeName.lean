import Ffilesystem.Containment
import Ffilesystem.FileName
import Ffilesystem.Join

/-!
# Reserved and safe names

A reserved name is one that Windows keeps for devices or cannot store; nothing
is reserved elsewhere. A safe name is made of characters that a shell leaves
alone. Both are asked of one name and look at its characters only, so a safe
name may still be one of the two components that move nowhere or up.
-/

namespace Ffilesystem

open Lexical

/-- `std::toupper` in the default locale. -/
def asciiUpperChar (c : Char) : Char :=
  if 97 ≤ c.toNat ∧ c.toNat ≤ 122 then Char.ofNat (c.toNat - 32) else c

def asciiUpper (s : Str) : Str := s.map asciiUpperChar

/-- The names of devices. A superscript digit takes two bytes. -/
def deviceNames : List Str :=
  ["AUX", "COM1", "COM2", "COM3", "COM4", "COM5", "COM6", "COM7", "COM8", "COM9",
    "COM\u00c2\u00b9", "COM\u00c2\u00b2", "COM\u00c2\u00b3", "CON", "CONIN$", "CONOUT$",
    "LPT1", "LPT2", "LPT3", "LPT4", "LPT5", "LPT6", "LPT7", "LPT8", "LPT9",
    "LPT\u00c2\u00b9", "LPT\u00c2\u00b2", "LPT\u00c2\u00b3", "NUL", "PRN"].map String.toList

def isReserved (pl : Platform) (path : Str) : Bool :=
  if !pl.isWindows then false
  else
    let n := fileName pl path
    if n.isEmpty || n == dot then false
    else if n.getLast? == some '.' || n.getLast? == some ' ' then true
    else if n.any (fun c => "<>:\"/\\|?*".toList.contains c) then true
    else
      let s := stem pl n
      if s.length < 3 || s.length > 4 then false
      else deviceNames.contains (asciiUpper s)

def isSafeChar (c : Char) : Bool :=
  c.isAlphanum || "_-.~@#$%^&()[]\x7b\x7d+=,!".toList.contains c

def isSafeName (pl : Platform) (filename : Str) : Bool :=
  if isReserved pl filename then false else filename.all isSafeChar

@[simp] theorem isReserved_posix (path : Str) : isReserved .posix path = false := rfl

theorem slash_not_mem_of_isSafeName {n : Str} (h : isSafeName .posix n) : '/' ∉ n := by
  intro hmem
  rw [isSafeName, isReserved_posix, if_neg Bool.false_ne_true] at h
  exact absurd (List.all_eq_true.mp h '/' hmem) (by decide)

/-- The components of a normal form are those of the path's place. -/
theorem componentsOfNormal_normal (path : Str) :
    componentsOfNormal (normal .posix path) = parts (place path) := by
  rw [normal_eq_render, componentsOfNormal_render]

/-- A name without a slash is one move after the path it is joined to. -/
theorem place_joinOf_of_not_mem_slash (b : Backend) (d : Str) {n : Str} (h : '/' ∉ n) :
    place (joinOf b d n) = (place d).step (moveOf n) := by
  have hrooted : isRooted n = false := by
    cases hn : isRooted n with
    | false => rfl
    | true => exact absurd (List.mem_of_head? (by simpa [isRooted] using hn)) h
  rw [place_joinOf, hrooted, if_neg Bool.false_ne_true, movesOf]
  by_cases hn : n = []
  · rw [hn, Scan.components_nil, moveOf_stay (.inl rfl)]
    rfl
  · rw [Scan.components_of_not_mem hn h]
    rfl

/-- Going up adds a component where only `".."` is left and there is no root. -/
theorem parts_step_up_iff (m : Place Name) :
    parts (m.step .up) = parts m ++ [dotdot] ↔
      m.rooted = false ∧ ∀ c ∈ parts m, c = dotdot := by
  by_cases hnames : m.names = []
  · rw [Place.step_up_of_names_nil hnames]
    have hparts : parts m = List.replicate m.ups dotdot := by simp [parts_eq, hnames]
    cases hroot : m.rooted with
    | true =>
        rw [Place.climb_of_rooted hroot]
        exact iff_of_false (fun heq => by simpa using congrArg List.length heq)
          (fun h => Bool.noConfusion h.1)
    | false =>
        refine iff_of_true ?_ ⟨rfl, fun c hc => List.eq_of_mem_replicate (hparts ▸ hc)⟩
        rw [hparts, parts_eq, Place.climb_ups_of_not_rooted hroot, Place.climb_names, hnames,
          List.replicate_succ', List.map_nil, List.append_nil]
  · -- a name is taken back
    rw [Place.step_up_of_names_ne_nil hnames]
    refine iff_of_false (fun heq => ?_) (fun h => ?_)
    · have hlen := congrArg List.length heq
      have hpos := List.length_pos_iff.mpr hnames
      simp only [parts_eq, List.length_append, List.length_map, List.length_dropLast,
        List.length_replicate, List.length_singleton] at hlen
      omega
    · obtain ⟨n, hn⟩ := List.exists_mem_of_ne_nil _ hnames
      have hmem : n.1 ∈ parts m := by
        rw [parts_eq]
        exact List.mem_append_right _ (List.mem_map_of_mem hn)
      exact n.2.2.2.1 (h.2 n.1 hmem)

/-- A safe name is the last component of its directory joined with it, unless it
is empty, a dot, or two dots with something to take back. -/
theorem componentsOfNormal_joinOf_iff (b : Backend) (d : Str) {n : Str}
    (h : isSafeName .posix n) :
    componentsOfNormal (normal .posix (joinOf b d n)) =
        componentsOfNormal (normal .posix d) ++ [n] ↔
      n ≠ [] ∧ n ≠ dot ∧
        (n = dotdot → isRooted d = false ∧
          ∀ c ∈ componentsOfNormal (normal .posix d), c = dotdot) := by
  have hslash := slash_not_mem_of_isSafeName h
  rw [componentsOfNormal_normal, componentsOfNormal_normal,
    place_joinOf_of_not_mem_slash b d hslash]
  rcases piece_cases hslash with hstay | rfl | hname
  · rw [moveOf_stay hstay, Place.step_stay]
    refine iff_of_false (fun heq => ?_) (fun hne => hstay.elim hne.1 hne.2.1)
    have hlen := congrArg List.length heq
    rw [List.length_append, List.length_singleton] at hlen
    omega
  · rw [moveOf_dotdot, parts_step_up_iff, place_rooted]
    exact ⟨fun hup => ⟨by decide, by decide, fun _ => hup⟩, fun hne => hne.2.2 rfl⟩
  · rw [moveOf_of_isName hname]
    refine iff_of_true ?_ ⟨hname.1, hname.2.1, fun heq => absurd heq hname.2.2.1⟩
    simp [parts_eq, Place.step]

theorem componentsOfNormal_joinOf_file :
    isSafeName .posix "b.txt".toList ∧
      componentsOfNormal (normal .posix (joinOf .c "a/..".toList "b.txt".toList)) =
        componentsOfNormal (normal .posix "a/..".toList) ++ ["b.txt".toList] :=
  ⟨by decide, (componentsOfNormal_joinOf_iff .c _ (by decide)).mpr
    ⟨by decide, by decide, fun h => absurd h (by decide)⟩⟩

/-- Two dots are safe characters, and leave the directory. -/
theorem componentsOfNormal_joinOf_dotdot :
    ¬ ∀ (b : Backend) (d n : Str), isSafeName .posix n →
      componentsOfNormal (normal .posix (joinOf b d n)) =
        componentsOfNormal (normal .posix d) ++ [n] := by
  intro h
  have hup := h .c "a".toList dotdot (by decide)
  rw [componentsOfNormal_normal, componentsOfNormal_normal] at hup
  exact absurd hup (by decide)

end Ffilesystem
