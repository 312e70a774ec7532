import Ffilesystem.CaseSensitive
import Ffilesystem.FileName
import Ffilesystem.Library.Part

/-!
# Executable files by their suffix

On Windows a readable file is executable when its suffix is in the environment
variable `PATHEXT`, a list of suffixes with semicolons between them. `is_exe`
searches the text of the list for the suffix, with no regard to its elements.
-/

namespace Ffilesystem

/-- The queries and the environment variable that `is_exe` reads. -/
structure ExeEnv where
  isFile : Str → Bool
  isReadable : Str → Bool
  isExecutableBinary : Str → Bool
  /-- Whether `access` with `X_OK` succeeds. -/
  access : Str → Bool
  pathext : Option Str

def defaultPathext : Str := ".com;.exe;.bat;.cmd".toList

/-- The list that is searched. Only the value of the variable is lowered. -/
def lowerPathext : Option Str → Str
  | some e => asciiLower e
  | none => defaultPathext

def isExe (pl : Platform) (env : ExeEnv) (path : Str) : Bool :=
  if !env.isFile path then false
  else if pl.isWindows then
    let suf := suffix pl path
    if suf.isEmpty then env.isExecutableBinary path
    else if !env.isReadable path then false
    else Scan.containsPart (lowerPathext env.pathext) (asciiLower suf)
  else env.access path

namespace ExeEnv

variable (env : ExeEnv)

/-- The elements of the list, as they are written. -/
def pathextElements : List Str := (env.pathext.getD defaultPathext).splitOn ';'

/-- A lowered suffix that is not an element of the lowered list is found in the list
all the same: inside an element, or across a semicolon of its own. -/
def FoundInside (suf : Str) : Prop :=
  (∀ e ∈ env.pathextElements, asciiLower e ≠ suf) ∧
    ((∃ e ∈ env.pathextElements, suf <:+: asciiLower e) ∨
      ';' ∈ suf ∧ suf <:+: asciiLower (env.pathext.getD defaultPathext))

end ExeEnv

section Pathext

variable {env : ExeEnv} {path : Str}

theorem asciiLowerChar_eq_semicolon_iff (c : Char) : asciiLowerChar c = ';' ↔ c = ';' := by
  constructor
  · exact fun h => eq_of_asciiLowerChar_eq (by decide) h
  · rintro rfl
    rfl

theorem splitOn_asciiLower (s : Str) :
    (asciiLower s).splitOn ';' = (s.splitOn ';').map asciiLower :=
  Scan.splitOn_map asciiLowerChar_eq_semicolon_iff s

/-- For a readable file with a suffix the answer is the search of the list. -/
theorem isExe_iff_isPart (hfile : env.isFile path = true) (hread : env.isReadable path = true)
    (hsuf : suffix .windows path ≠ []) :
    isExe .windows env path = true ↔
      asciiLower (suffix .windows path) <:+: asciiLower (env.pathext.getD defaultPathext) := by
  have hlist : lowerPathext env.pathext = asciiLower (env.pathext.getD defaultPathext) := by
    cases env.pathext with
    | none => decide
    | some e => rfl
  have hwin : Platform.windows.isWindows = true := rfl
  rw [isExe, hfile, hread, if_neg (by decide), if_pos hwin]
  dsimp only
  rw [if_neg (fun h => hsuf (List.isEmpty_iff.mp h)), if_neg (by decide), hlist]
  exact Scan.containsPart_iff

/-- Being found is being an element, or lying inside one, or reaching across a semicolon. -/
theorem infix_pathext_iff (env : ExeEnv) (suf : Str) :
    suf <:+: asciiLower (env.pathext.getD defaultPathext) ↔
      (∃ e ∈ env.pathextElements, asciiLower e = suf) ∨ env.FoundInside suf := by
  constructor
  · intro h
    by_cases hmem : ∃ e ∈ env.pathextElements, asciiLower e = suf
    · exact .inl hmem
    · refine .inr ⟨fun e he heq => hmem ⟨e, he, heq⟩, ?_⟩
      by_cases hsemi : ';' ∈ suf
      · exact .inr ⟨hsemi, h⟩
      · obtain ⟨piece, hpiece, hinside⟩ := (Scan.infix_iff_exists_mem_splitOn hsemi).mp h
        rw [splitOn_asciiLower] at hpiece
        obtain ⟨e, he, rfl⟩ := List.mem_map.mp hpiece
        exact .inl ⟨e, he, hinside⟩
  · have hpart : ∀ e ∈ env.pathextElements,
        asciiLower e <:+: asciiLower (env.pathext.getD defaultPathext) := by
      intro e he
      apply Scan.infix_of_mem_splitOn (c := ';')
      rw [splitOn_asciiLower]
      exact List.mem_map_of_mem he
    rintro (⟨e, he, rfl⟩ | ⟨-, ⟨e, he, hinside⟩ | ⟨-, hacross⟩⟩)
    · exact hpart e he
    · exact hinside.trans (hpart e he)
    · exact hacross

/-- A readable file is found executable exactly when its suffix is an element of the
list, unless the suffix is found in the list without being one. -/
theorem isExe_iff_element_iff (env : ExeEnv) (path : Str) (hfile : env.isFile path = true)
    (hread : env.isReadable path = true) (hsuf : suffix .windows path ≠ []) :
    (isExe .windows env path = true ↔
        ∃ e ∈ env.pathextElements, asciiLower e = asciiLower (suffix .windows path)) ↔
      ¬ env.FoundInside (asciiLower (suffix .windows path)) := by
  rw [isExe_iff_isPart hfile hread hsuf, infix_pathext_iff]
  constructor
  · intro h hinside
    obtain ⟨e, he, heq⟩ := h.mp (.inr hinside)
    exact hinside.1 e he heq
  · exact fun h => or_iff_left h

/-- Readable files, and no `PATHEXT`. -/
def noPathext : ExeEnv where
  isFile := fun _ => true
  isReadable := fun _ => true
  isExecutableBinary := fun _ => false
  access := fun _ => false
  pathext := none

theorem isExe_iff_element_exe :
    isExe .windows noPathext "a.EXE".toList = true ↔
      ∃ e ∈ noPathext.pathextElements, asciiLower e = asciiLower (suffix .windows "a.EXE".toList) :=
  (isExe_iff_element_iff noPathext "a.EXE".toList rfl rfl (by decide)).mpr
    (fun h => h.1 ".exe".toList (by decide) (by decide))

/-- The suffix `".c"` is found in `".com"`. -/
theorem not_isExe_iff_element_of_c :
    ¬ ∀ (env : ExeEnv) (path : Str), env.isFile path = true → env.isReadable path = true →
      suffix .windows path ≠ [] →
      (isExe .windows env path = true ↔
        ∃ e ∈ env.pathextElements, asciiLower e = asciiLower (suffix .windows path)) := by
  intro h
  exact absurd ((h noPathext "a.c".toList rfl rfl (by decide)).mp (by decide)) (by decide)

end Pathext

end Ffilesystem
