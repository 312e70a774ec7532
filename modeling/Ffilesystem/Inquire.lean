import Ffilesystem.System

/-!
# Attributes of a path in the C backend

The queries of the C backend read the attributes of a path with `statx` or
`stat`. `is_file` and `is_directory` then read `errno`, whether or not the call
has failed, in order to find out what they report to the error callback.

`errno` belongs to the process. A query is a function of it, and of what was
reported so far.
-/

namespace Ffilesystem

/-- What is read of a file, in the types of the results. -/
structure Attributes where
  mode : Nat
  size : BitVec 64

/-- The call that decides answers `a`: `statx` where it was compiled in and the kernel has
it, and otherwise the older call. -/
inductive Decides {α : Type} (haveStatx : Bool) (statx older : Except Errno α) (a : α) : Prop
  | statx : haveStatx = true → statx = .ok a → Decides haveStatx statx older a
  | fallback : haveStatx = true → statx = .error .nosys → older = .ok a →
      Decides haveStatx statx older a
  | older : haveStatx = false → older = .ok a → Decides haveStatx statx older a

/-- What the calls that read attributes answer for a C string. -/
structure StatEnv where
  /-- Whether `HAVE_STATX` is defined. -/
  haveStatx : Bool
  statx : Str → Except Errno Attributes
  stat : Str → Except Errno Attributes

/-- An invocation of the error callback: the texts that it is about, and the value
of `errno` that is added to its message. -/
structure Report where
  texts : List Str
  errno : Option Errno

/-- The part of the process that a query reads and writes. Without an error
`errno` is zero. -/
structure Process where
  errno : Option Errno
  reports : List Report

namespace Process

def setErrno (p : Process) (e : Errno) : Process := { p with errno := some e }

def fsErrorCallback (p : Process) (texts : List Str) : Process :=
  { p with reports := p.reports ++ [⟨texts, p.errno⟩] }

@[simp] theorem setErrno_errno (p : Process) (e : Errno) : (p.setErrno e).errno = some e := rfl

@[simp] theorem setErrno_reports (p : Process) (e : Errno) :
    (p.setErrno e).reports = p.reports := rfl

theorem fsErrorCallback_reports_ne (p : Process) (texts : List Str) :
    (p.fsErrorCallback texts).reports ≠ p.reports := by
  intro h
  exact absurd (congrArg List.length h) (by simp [fsErrorCallback])

end Process

def sIsDir (mode : Nat) : Bool := mode &&& 0o170000 == 0o040000

def sIsReg (mode : Nat) : Bool := mode &&& 0o170000 == 0o100000

/-- The size that stands for no answer, `(uintmax_t)(-1)`. -/
def fsUnknownSize : BitVec 64 := BitVec.allOnes 64

namespace StatEnv

variable (env : StatEnv)

/-- The call to `stat` that `get_stat_value` ends with. -/
def statValue {α : Type} (path : Str) (errorValue : α) (errorHandler : Str → Process → Process)
    (value : Attributes → α) (p : Process) : α × Process :=
  match env.stat (cStr path) with
  | .ok s => (value s, p)
  | .error e => (errorValue, errorHandler path (p.setErrno e))

def getStatValue {α : Type} (path : Str) (errorValue : α)
    (errorHandler : Str → Process → Process) (value : Attributes → α) (p : Process) :
    α × Process :=
  if env.haveStatx then
    match env.statx (cStr path) with
    | .ok x => (value x, p)
    | .error e =>
        if e ≠ .nosys then (errorValue, errorHandler path (p.setErrno e))
        else env.statValue path errorValue errorHandler value (p.setErrno e)
  else env.statValue path errorValue errorHandler value p

def fsStMode (path : Str) (p : Process) : Nat × Process :=
  env.getStatValue path 0 (fun _ p => p) Attributes.mode p

/-- A test of the mode, and the lines after it that read `errno`. -/
def queryMode (test : Nat → Bool) (path : Str) (p : Process) : Bool × Process :=
  let (mode, p) := env.fsStMode path p
  let ok := test mode
  let ec := p.errno
  if !ok && ec.isSome && ec ≠ some .noent then (ok, p.fsErrorCallback [path]) else (ok, p)

def isDirectory (path : Str) (p : Process) : Bool × Process := env.queryMode sIsDir path p

def isFile (path : Str) (p : Process) : Bool × Process := env.queryMode sIsReg path p

def fileSize (path : Str) (p : Process) : BitVec 64 × Process :=
  match env.isFile path p with
  | (false, p) => (fsUnknownSize, p.fsErrorCallback [path, "not a regular file".toList])
  | (true, p) =>
      env.getStatValue path fsUnknownSize (fun path p => p.fsErrorCallback [path])
        Attributes.size p

/-- `statx` was compiled in, and the kernel does not have it. -/
def FallsBack (path : Str) : Prop :=
  env.haveStatx = true ∧ env.statx (cStr path) = .error .nosys

/-- The call that decides about a path succeeds, with attributes `a`. -/
abbrev Answers (path : Str) (a : Attributes) : Prop :=
  Decides env.haveStatx (env.statx (cStr path)) (env.stat (cStr path)) a

end StatEnv

/-- From `p₁` and from `p₂` a query has the same result, and it reports nothing. -/
structure Unaffected {α : Type} (query : Process → α × Process) (p₁ p₂ : Process) : Prop where
  result : (query p₁).1 = (query p₂).1
  reports₁ : (query p₁).2.reports = p₁.reports
  reports₂ : (query p₂).2.reports = p₂.reports

section Queries

variable {env : StatEnv} {path : Str} {a : Attributes}

/-- A call that succeeds leaves `errno` alone, but the one before it may have failed. -/
theorem getStatValue_of_answers {α : Type} (h : env.Answers path a) (errorValue : α)
    (errorHandler : Str → Process → Process) (value : Attributes → α) (p : Process) :
    ∃ p', env.getStatValue path errorValue errorHandler value p = (value a, p') ∧
      p'.reports = p.reports ∧
      (¬ env.FallsBack path ∧ p'.errno = p.errno ∨
        env.FallsBack path ∧ p'.errno = some .nosys) := by
  rw [StatEnv.getStatValue]
  cases h with
  | statx hhave hstatx =>
      rw [if_pos hhave, hstatx]
      refine ⟨p, rfl, rfl, .inl ⟨fun hback => ?_, rfl⟩⟩
      rw [hback.2] at hstatx
      cases hstatx
  | fallback hhave hnosys hstat =>
      rw [if_pos hhave, hnosys]
      dsimp only
      rw [if_neg (not_not.mpr rfl), StatEnv.statValue, hstat]
      exact ⟨p.setErrno .nosys, rfl, rfl, .inr ⟨⟨hhave, hnosys⟩, rfl⟩⟩
  | older hhave hstat =>
      rw [if_neg (by rw [hhave]; exact Bool.false_ne_true), StatEnv.statValue, hstat]
      refine ⟨p, rfl, rfl, .inl ⟨fun hback => ?_, rfl⟩⟩
      rw [hback.1] at hhave
      cases hhave

/-- The mode that is read does not depend on the process. -/
theorem fsStMode_fst (env : StatEnv) (path : Str) (p p' : Process) :
    (env.fsStMode path p).1 = (env.fsStMode path p').1 := by
  simp only [StatEnv.fsStMode, StatEnv.getStatValue, StatEnv.statValue]
  split
  · split
    · rfl
    · split
      · rfl
      · split
        · rfl
        · rfl
  · split
    · rfl
    · rfl

theorem queryMode_fst (env : StatEnv) (test : Nat → Bool) (path : Str) (p : Process) :
    (env.queryMode test path p).1 = test (env.fsStMode path p).1 := by
  rw [StatEnv.queryMode]
  dsimp only
  split
  · rfl
  · rfl

/-- The mode decides about the result. What `errno` holds in the end decides about
the report, unless the test of the mode succeeds. -/
theorem queryMode_of_answers (h : env.Answers path a) (test : Nat → Bool) (p : Process) :
    (env.queryMode test path p).1 = test a.mode ∧
      ((env.queryMode test path p).2.reports = p.reports ↔
        test a.mode = true ∨
          ¬ env.FallsBack path ∧ (p.errno = none ∨ p.errno = some .noent)) := by
  obtain ⟨p', hget, hreports, herrno⟩ :=
    getStatValue_of_answers h 0 (fun _ p => p) Attributes.mode p
  have hquiet : p'.errno = none ∨ p'.errno = some .noent ↔
      ¬ env.FallsBack path ∧ (p.errno = none ∨ p.errno = some .noent) := by
    obtain ⟨hnot, hsame⟩ | ⟨hback, hnosys⟩ := herrno
    · rw [hsame, and_iff_right hnot]
    · rw [hnosys]
      exact iff_of_false (by decide) (fun hnot => hnot.1 hback)
  rw [StatEnv.queryMode, StatEnv.fsStMode, hget]
  dsimp only
  rw [← hquiet]
  split
  · rename_i hcond
    rw [Bool.and_eq_true, Bool.and_eq_true, Bool.not_eq_true', decide_eq_true_eq] at hcond
    obtain ⟨⟨htest, hsome⟩, hne⟩ := hcond
    refine ⟨rfl, iff_of_false (fun heq => ?_) ?_⟩
    · rw [← hreports] at heq
      exact p'.fsErrorCallback_reports_ne [path] heq
    · rintro (hok | hnone | hnoent)
      · rw [htest] at hok
        cases hok
      · rw [hnone] at hsome
        cases hsome
      · exact hne hnoent
  · rename_i hcond
    refine ⟨rfl, iff_of_true hreports ?_⟩
    by_contra hnot
    rw [not_or, not_or] at hnot
    obtain ⟨htest, hnone, hne⟩ := hnot
    refine hcond ?_
    rw [Bool.eq_false_iff.mpr htest, Option.isSome_iff_ne_none.mpr hnone, decide_eq_true hne]
    rfl

theorem unaffected_queryMode_iff (h : env.Answers path a) (test : Nat → Bool)
    (p₁ p₂ : Process) :
    Unaffected (env.queryMode test path) p₁ p₂ ↔
      test a.mode = true ∨ ¬ env.FallsBack path ∧
        (p₁.errno = none ∨ p₁.errno = some .noent) ∧
        (p₂.errno = none ∨ p₂.errno = some .noent) := by
  obtain ⟨hresult₁, hreports₁⟩ := queryMode_of_answers h test p₁
  obtain ⟨hresult₂, hreports₂⟩ := queryMode_of_answers h test p₂
  constructor
  · rintro ⟨-, hquiet₁, hquiet₂⟩
    obtain hok | ⟨hback, hfirst⟩ := hreports₁.mp hquiet₁
    · exact .inl hok
    · exact (hreports₂.mp hquiet₂).imp_right (fun hsecond => ⟨hback, hfirst, hsecond.2⟩)
  · intro hquiet
    refine ⟨hresult₁.trans hresult₂.symm, hreports₁.mpr ?_, hreports₂.mpr ?_⟩
    · exact hquiet.imp_right (fun hback => ⟨hback.1, hback.2.1⟩)
    · exact hquiet.imp_right (fun hback => ⟨hback.1, hback.2.2⟩)

/-- No mode is that of a directory and of a regular file. -/
theorem sIsReg_eq_false_of_sIsDir {mode : Nat} (h : sIsDir mode = true) :
    sIsReg mode = false := by
  rw [sIsDir, beq_iff_eq] at h
  rw [sIsReg, h]
  rfl

/-- The two queries of a path that is there do not show what `errno` held before if and
only if it held nothing or `ENOENT`, and `statx` did not fail on the way. -/
theorem unaffected_isFile_isDirectory_iff (env : StatEnv) (path : Str) (a : Attributes)
    (h : env.Answers path a) (p₁ p₂ : Process) :
    (Unaffected (env.isFile path) p₁ p₂ ∧ Unaffected (env.isDirectory path) p₁ p₂) ↔
      ¬ env.FallsBack path ∧ (p₁.errno = none ∨ p₁.errno = some .noent) ∧
        (p₂.errno = none ∨ p₂.errno = some .noent) := by
  have hfile := unaffected_queryMode_iff h sIsReg p₁ p₂
  have hdir := unaffected_queryMode_iff h sIsDir p₁ p₂
  constructor
  · rintro ⟨huse, huse'⟩
    -- one of the two tests of the mode fails
    obtain hreg | hquiet := hfile.mp huse
    · obtain hisdir | hquiet := hdir.mp huse'
      · rw [sIsReg_eq_false_of_sIsDir hisdir] at hreg
        cases hreg
      · exact hquiet
    · exact hquiet
  · intro hquiet
    exact ⟨hfile.mpr (.inr hquiet), hdir.mpr (.inr hquiet)⟩

/-- A system on which every path is a directory. -/
def directoriesOnly : StatEnv where
  haveStatx := false
  statx := fun _ => .error .nosys
  stat := fun _ => .ok ⟨0o040755, 4096⟩

theorem unaffected_of_noent :
    Unaffected (directoriesOnly.isFile "d".toList) ⟨none, []⟩ ⟨some .noent, []⟩ ∧
      Unaffected (directoriesOnly.isDirectory "d".toList) ⟨none, []⟩ ⟨some .noent, []⟩ :=
  (unaffected_isFile_isDirectory_iff directoriesOnly "d".toList _ (.older rfl rfl) _ _).mpr
    ⟨fun hback => absurd hback.1 Bool.false_ne_true, .inl rfl, .inr rfl⟩

/-- An error of an earlier call is reported where a directory is no file. -/
theorem not_unaffected_of_acces :
    ¬ ∀ (env : StatEnv) (path : Str) (a : Attributes), env.Answers path a →
      ∀ p₁ p₂ : Process, Unaffected (env.isFile path) p₁ p₂ ∧
        Unaffected (env.isDirectory path) p₁ p₂ := by
  intro h
  have hfile := (h directoriesOnly "d".toList _ (.older rfl rfl) ⟨some .acces, []⟩ ⟨none, []⟩).1
  exact absurd (congrArg List.length hfile.reports₁) (by decide)

end Queries

end Ffilesystem
