import Ffilesystem.Absolute
import Ffilesystem.FileName
import Ffilesystem.Mkdir

/-!
# Which operations look at an empty string

`front()` and `back()` have no meaning on an empty string. The operations of the
C backend are written here once more with these two calls checked: a call on an
empty string leaves no result. Each operation has one lemma that says when it
has a result, and that the result is then the one of the unchecked operation,
which counts an empty path as one that does not start with a separator.

The current directory is any string here, and empty where it cannot be
determined.
-/

namespace Ffilesystem

namespace Checked

def front (s : Str) : Option Char := s.head?

def back (s : Str) : Option Char := s.getLast?

section Operations

variable (pl : Platform)

def rootDirectory (path : Str) : Option Str :=
  if pl.isWindows then
    let i := if 2 ≤ path.length ∧ path[1]? = some ':' then 2 else 0
    some (path[i]?.filter pl.isFileSeparator).toList
  else do
    let c ← front path
    return if pl.isFileSeparator c then [c] else []

def hasRootDirectory (path : Str) : Option Bool := do
  let dir ← rootDirectory pl path
  return !dir.isEmpty

def root (path : Str) : Option Str := do
  let dir ← rootDirectory pl path
  return rootName pl path ++ dir

def isAbsolute (path : Str) : Option Bool :=
  if pl.isWindows then
    if hasRootName pl path then hasRootDirectory pl path else some false
  else hasRootDirectory pl path

def join (path other : Str) : Option Str := do
  let abs ← isAbsolute pl other
  if abs || (hasRootName pl other && rootName pl other ≠ rootName pl path) then
    return other
  else
    let dir ← hasRootDirectory pl other
    if dir then return rootName pl path ++ other
    else if path.isEmpty then return path ++ other
    else
      let c ← back path
      return if pl.isFileSeparator c then path ++ other else path ++ '/' :: other

def fsNormalPush (path : Str) (parts : List Str) (part : Str) : Option (List Str) :=
  if part = [] ∨ part = dot then some parts
  else if part = dotdot then
    if parts ≠ [] ∧ parts.getLast? ≠ some dotdot then some parts.dropLast
    else do
      let c ← front path
      return if c ≠ '/' then parts ++ [part] else parts
  else some (parts ++ [part])

def fsNormalSplitLoop (path p : Str) (start : Nat) (parts : List Str) : Option (List Str) :=
  if start < p.length then
    let stop := (Scan.find p '/' start).getD p.length
    (fsNormalPush path parts (Scan.substr p start (stop - start))).bind fun parts =>
      fsNormalSplitLoop path p (stop + 1) parts
  else some parts
termination_by p.length - start
decreasing_by
  have := Scan.le_getD_find (s := p) (c := '/') (n := p.length) (Nat.le_of_lt ‹_›)
  omega

def normalEnd (r : Str) : Option Str :=
  let isWindowsDriveRoot :=
    pl.isWindows && r.length == 3 && r[1]? == some ':' && r[2]? == some '/'
  if 1 < r.length then do
    let c ← back r
    return if pl.isFileSeparator c && !isWindowsDriveRoot then r.dropLast else r
  else if r.isEmpty then some (r ++ ['.'])
  else some r

def normal (path : Str) : Option Str :=
  if path.isEmpty then some dot
  else do
    let p := asPosix pl path
    let parts ← fsNormalSplitLoop path p 0 []
    let c ← front path
    let r := if pl.isFileSeparator c then ['/'] else []
    normalEnd pl (parts.foldl (fun r part => r ++ part ++ ['/']) r)

/-- `with_suffix` on POSIX systems. -/
def withSuffix (path newSuffix : Str) : Option Str :=
  let s := stem .posix path
  if s.isEmpty then join .posix path newSuffix
  else
    let p := parent .c path
    if p = dot then some (s ++ newSuffix)
    else do
      let c ← back p
      return (if c ≠ '/' then p ++ ['/'] else p) ++ s ++ newSuffix

/-- `absolute` with one argument on POSIX systems. -/
def absolute (cwd path : Str) : Option Str :=
  if path.isEmpty then some cwd
  else do
    let abs ← isAbsolute .posix path
    return if abs then path else if cwd.isEmpty then [] else cwd ++ '/' :: path

/-- `absolute` with two arguments on POSIX systems. -/
def absoluteBase (cwd path base : Str) : Option Str := do
  let abs ← isAbsolute .posix path
  if abs then return path
  else
    let b ← absolute cwd base
    if b.isEmpty then return []
    else if path.isEmpty then return b
    else
      let c ← back b
      return (if c ≠ '/' then b ++ ['/'] else b) ++ path

def canonical (realPath : Str → Str) (path : Str) (strict : Bool) : Option Str :=
  if path.isEmpty then some []
  else if !(realPath path).isEmpty then some (realPath path)
  else if !strict then normal .posix path
  else some []

def resolve (cwd : Str) (realPath : Str → Str) (path : Str) (strict : Bool) : Option Str := do
  let a ← absolute cwd path
  canonical realPath a strict

/-- `mkdir` on POSIX systems, for any system call and any state it works on. -/
def mkdir {σ : Type} (call : σ → Str → Except Errno σ) (cwd : Str) (realPath : Str → Str)
    (s : σ) (path : Str) : Option (Bool × σ) :=
  if path.isEmpty then some (false, s)
  else do
    let rp ← resolve cwd realPath path false
    let parts := splitFilesep .posix rp
    let c ← front rp
    let buf := if Platform.posix.isFileSeparator c then ['/'] else []
    return mkdirLoop call parts.getLast? parts buf false s

end Operations

section Results

variable {path other : Str}

theorem rootDirectory_nil : rootDirectory .posix [] = none := rfl

theorem rootDirectory_of_ne (h : path ≠ []) :
    rootDirectory .posix path = some (Ffilesystem.rootDirectory .posix path) := by
  obtain ⟨c, rest, rfl⟩ := List.exists_cons_of_ne_nil h
  by_cases hc : c = '/'
  · subst c
    rfl
  · simp [rootDirectory, Ffilesystem.rootDirectory, front, hc, Option.filter]

theorem hasRootDirectory_of_ne (h : path ≠ []) :
    hasRootDirectory .posix path = some (Ffilesystem.hasRootDirectory .posix path) := by
  rw [hasRootDirectory, rootDirectory_of_ne h]
  rfl

theorem root_of_ne (h : path ≠ []) :
    root .posix path = some (Ffilesystem.root .posix path) := by
  rw [root, rootDirectory_of_ne h]
  rfl

theorem isAbsolute_of_ne (h : path ≠ []) :
    isAbsolute .posix path = some (Ffilesystem.isAbsolute .posix path) :=
  hasRootDirectory_of_ne h

theorem join_nil (path : Str) : join .posix path [] = none := rfl

theorem join_of_ne (h : other ≠ []) :
    join .posix path other = some (Ffilesystem.join .posix path other) := by
  rw [join, isAbsolute_of_ne h, hasRootDirectory_of_ne h, Ffilesystem.join]
  simp only [Option.bind_eq_bind, Option.bind_some, Option.pure_def]
  split
  · rfl
  · split
    · rfl
    · cases path using List.reverseRecOn with
      | nil => rfl
      | append_singleton path c =>
          by_cases hc : c = '/'
          · simp [back, hc]
          · simp [back, hc]

/-- The stack step looks at the path only where it is not empty. -/
theorem fsNormalPush_of_ne (h : path ≠ []) (parts : List Str) (part : Str) :
    fsNormalPush path parts part = some (Ffilesystem.fsNormalPush path parts part) := by
  obtain ⟨c, rest, rfl⟩ := List.exists_cons_of_ne_nil h
  rw [fsNormalPush, Ffilesystem.fsNormalPush]
  split
  · rfl
  · split
    · split
      · rfl
      · by_cases hc : c = '/'
        · simp [front, hc]
        · simp [front, hc]
    · rfl

theorem fsNormalSplitLoop_of_ne (h : path ≠ []) (p : Str) (start : Nat) (parts : List Str) :
    fsNormalSplitLoop path p start parts =
      some (Ffilesystem.fsNormalSplitLoop path p start parts) := by
  fun_induction Ffilesystem.fsNormalSplitLoop path p start parts with
  | case1 start parts hlt stop ih =>
      rw [fsNormalSplitLoop, if_pos hlt]
      dsimp only
      rw [fsNormalPush_of_ne h]
      exact ih
  | case2 start parts hge => rw [fsNormalSplitLoop, if_neg hge]

theorem normalEnd_eq (pl : Platform) (r : Str) :
    normalEnd pl r = some (Ffilesystem.normalEnd pl r) := by
  rw [normalEnd, Ffilesystem.normalEnd]
  split
  · cases r using List.reverseRecOn with
    | nil => contradiction
    | append_singleton r c => simp [back]
  · split
    · rfl
    · rfl

/-- Normalization answers the empty path before it looks at one. -/
theorem normal_eq (pl : Platform) (path : Str) :
    normal pl path = some (Ffilesystem.normal pl path) := by
  by_cases h : path = []
  · rw [h]
    rfl
  · obtain ⟨c, rest, hpath⟩ := List.exists_cons_of_ne_nil h
    rw [normal, if_neg (by simpa using h), Ffilesystem.normal, if_neg (by simpa using h)]
    dsimp only
    rw [fsNormalSplitLoop_of_ne h, hpath]
    exact normalEnd_eq pl _

/-- The parent of a path is never empty, so its last character may be looked at. -/
theorem withSuffix_of_stem_ne {newSuffix : Str} (h : stem .posix path ≠ []) :
    withSuffix path newSuffix = some (Ffilesystem.withSuffix path newSuffix) := by
  have hstem : ¬ (stem .posix path).isEmpty = true := by simpa using h
  have hback : ∀ p : Str, p ≠ [] →
      ((back p).bind fun c =>
          some ((if c ≠ '/' then p ++ ['/'] else p) ++ stem .posix path ++ newSuffix)) =
        some ((if p.getLast? ≠ some '/' then p ++ ['/'] else p) ++ stem .posix path ++
          newSuffix) := by
    intro p hp
    cases p using List.reverseRecOn with
    | nil => exact absurd rfl hp
    | append_singleton p c => simp [back]
  rw [withSuffix, Ffilesystem.withSuffix]
  dsimp only
  rw [if_neg hstem, if_neg hstem]
  by_cases hdot : parent .c path = dot
  · rw [if_pos hdot, if_pos hdot]
  · rw [if_neg hdot, if_neg hdot]
    exact hback _ (parent_ne_nil .c path)

theorem withSuffix_of_stem_nil (h : stem .posix path = []) (newSuffix : Str) :
    withSuffix path newSuffix = join .posix path newSuffix ∧
      Ffilesystem.withSuffix path newSuffix = Ffilesystem.join .posix path newSuffix := by
  rw [withSuffix, Ffilesystem.withSuffix, h]
  exact ⟨rfl, rfl⟩

theorem withSuffix_eq (path newSuffix : Str) :
    withSuffix path newSuffix =
      if fileName .posix path = [] ∧ newSuffix = [] then none
      else some (Ffilesystem.withSuffix path newSuffix) := by
  have hname := stem_eq_nil_iff .posix path
  by_cases hstem : stem .posix path = []
  · obtain ⟨hchecked, htotal⟩ := withSuffix_of_stem_nil hstem newSuffix
    rw [hchecked, htotal]
    by_cases hnew : newSuffix = []
    · rw [if_pos ⟨hname.mp hstem, hnew⟩, hnew]
      exact join_nil path
    · rw [if_neg (fun h => hnew h.2)]
      exact join_of_ne hnew
  · rw [if_neg (fun h => hstem (hname.mpr h.1))]
    exact withSuffix_of_stem_ne hstem

theorem absolute_eq (cwd path : Str) : absolute cwd path = some (absoluteFrom cwd path) := by
  by_cases h : path = []
  · rw [h]
    rfl
  · have hne : ¬ path.isEmpty = true := by simpa using h
    rw [absolute, if_neg hne, isAbsolute_of_ne h, absoluteFrom, if_neg hne]
    rfl

theorem absolute_getCwd (sys : System) (path : Str) :
    absolute sys.getCwd path = some (Ffilesystem.absolute sys path) := by
  rw [absolute_eq, absoluteFrom_getCwd]

theorem absoluteBase_nil (cwd base : Str) : absoluteBase cwd [] base = none := rfl

theorem absoluteBase_of_ne (cwd : Str) (h : path ≠ []) (base : Str) :
    absoluteBase cwd path base = some (Ffilesystem.absoluteBase cwd path base) := by
  rw [absoluteBase, isAbsolute_of_ne h, absolute_eq, Ffilesystem.absoluteBase]
  simp only [Option.bind_eq_bind, Option.bind_some]
  split
  · rfl
  · cases absoluteFrom cwd base using List.reverseRecOn with
    | nil => rfl
    | append_singleton b c =>
        by_cases hc : c = '/'
        · simp [back, h, hc]
        · simp [back, h, hc]

theorem canonical_eq (realPath : Str → Str) (path : Str) (strict : Bool) :
    canonical realPath path strict =
      some (if path = [] then []
        else if realPath path ≠ [] then realPath path
        else if !strict then Ffilesystem.normal .posix path
        else []) := by
  rw [canonical, normal_eq]
  by_cases hpath : path = []
  · simp [hpath]
  · by_cases hreal : realPath path = []
    · cases strict <;> simp [hpath, hreal]
    · simp [hpath, hreal]

/-- Only an empty path has an empty canonical form. -/
theorem canonical_ne_nil (realPath : Str → Str) {path : Str} (h : path ≠ []) :
    ∃ rp, rp ≠ [] ∧ canonical realPath path false = some rp := by
  rw [canonical_eq, if_neg h]
  by_cases hreal : realPath path = []
  · rw [if_neg (not_not.mpr hreal), normal_eq_render]
    exact ⟨_, render_ne_nil _, rfl⟩
  · rw [if_pos hreal]
    exact ⟨_, hreal, rfl⟩

theorem resolve_getCwd (sys : System) (path : Str) (strict : Bool) :
    resolve sys.getCwd sys.realPath path strict = some (Ffilesystem.resolve sys path strict) := by
  rw [resolve, absolute_getCwd, Ffilesystem.resolve, Ffilesystem.canonical]
  simp only [Option.bind_eq_bind, Option.bind_some, canonical_eq]
  simp

section Mkdir

variable {σ : Type} {call : σ → Str → Except Errno σ} {cwd : Str} {realPath : Str → Str} {s : σ}

theorem mkdir_of_resolve {rp : Str} (h : path ≠ [])
    (hresolve : resolve cwd realPath path false = some rp) :
    mkdir call cwd realPath s path =
      if rp = [] then none
      else some (mkdirLoop call (splitFilesep .posix rp).getLast? (splitFilesep .posix rp)
        (if rp.head?.any (Platform.isFileSeparator .posix) then ['/'] else []) false s) := by
  rw [mkdir, if_neg (by simpa using h), hresolve]
  cases rp with
  | nil => rfl
  | cons c rest => rfl

/-- The resolved path is empty where a relative path meets no current directory. -/
theorem mkdir_isSome_iff :
    (mkdir call cwd realPath s path).isSome ↔ path = [] ∨ isRooted path ∨ cwd ≠ [] := by
  by_cases h : path = []
  · rw [h]
    exact iff_of_true rfl (.inl rfl)
  · rw [or_iff_right h]
    by_cases hnil : absoluteFrom cwd path = []
    · have hresolve : resolve cwd realPath path false = some [] := by
        rw [resolve, absolute_eq, hnil]
        rfl
      obtain ⟨hrooted, hcwd⟩ := (absoluteFrom_eq_nil_iff h).mp hnil
      rw [mkdir_of_resolve h hresolve, if_pos rfl]
      exact iff_of_false Bool.false_ne_true
        (fun hsafe => hsafe.elim (by simp [hrooted]) (fun hne => hne hcwd))
    · obtain ⟨rp, hrp, hcanon⟩ := canonical_ne_nil realPath hnil
      have hresolve : resolve cwd realPath path false = some rp := by
        rw [resolve, absolute_eq]
        exact hcanon
      rw [mkdir_of_resolve h hresolve, if_neg hrp]
      refine iff_of_true rfl ?_
      rw [absoluteFrom_eq_nil_iff h, not_and_or, Bool.not_eq_false] at hnil
      exact hnil

/-- With the calls of a system, whose current directory has a name, `mkdir` never
looks at an empty string. -/
theorem mkdir_getCwd (refuse : Refusals) (sys : System) (path : Str) :
    mkdir (fun sys buf => sys.mkdirCall refuse buf) sys.getCwd sys.realPath sys path =
      some (Ffilesystem.mkdir refuse sys path) := by
  by_cases h : path = []
  · rw [h]
    rfl
  · obtain ⟨texts, -, hrp, -⟩ := resolve_eq sys h
    have hpath : ¬ path.isEmpty = true := by simpa using h
    rw [mkdir_of_resolve h (resolve_getCwd sys path false), if_neg (by rw [hrp]; simp),
      Ffilesystem.mkdir, if_neg hpath]
    rfl

end Mkdir

end Results

section Calls

/-- The lexical operations and the two that start with them, with arguments. -/
inductive Call
  | rootDirectory (path : Str)
  | root (path : Str)
  | hasRootDirectory (path : Str)
  | isAbsolute (path : Str)
  | join (path other : Str)
  | absolute (path : Str)
  | absoluteBase (path base : Str)
  | withSuffix (path newSuffix : Str)
  | normal (path : Str)
  | mkdir (path : Str)
  deriving DecidableEq, Repr

/-- What the operations are told by the system. -/
structure CallEnv (σ : Type) where
  cwd : Str
  realPath : Str → Str
  mkdir : σ → Str → Except Errno σ
  state : σ

variable {σ : Type}

/-- Every `front()` and `back()` on the way is asked of a string that has one. -/
def Call.Safe (env : CallEnv σ) : Call → Prop
  | .rootDirectory path => (Checked.rootDirectory .posix path).isSome
  | .root path => (Checked.root .posix path).isSome
  | .hasRootDirectory path => (Checked.hasRootDirectory .posix path).isSome
  | .isAbsolute path => (Checked.isAbsolute .posix path).isSome
  | .join path other => (Checked.join .posix path other).isSome
  | .absolute path => (Checked.absolute env.cwd path).isSome
  | .absoluteBase path base => (Checked.absoluteBase env.cwd path base).isSome
  | .withSuffix path newSuffix => (Checked.withSuffix path newSuffix).isSome
  | .normal path => (Checked.normal .posix path).isSome
  | .mkdir path => (Checked.mkdir env.mkdir env.cwd env.realPath env.state path).isSome

def Call.Guarded (env : CallEnv σ) : Call → Prop
  | .rootDirectory path | .root path | .hasRootDirectory path | .isAbsolute path => path ≠ []
  | .join _ other => other ≠ []
  | .absoluteBase path _ => path ≠ []
  | .withSuffix path newSuffix => (path ≠ [] ∧ path.getLast? ≠ some '/') ∨ newSuffix ≠ []
  | .absolute _ | .normal _ => True
  | .mkdir path => path = [] ∨ isRooted path ∨ env.cwd ≠ []

/-- The calls that reach `root_directory` need a path, two of them also by way of
`join`, and `mkdir` of a relative path needs a current directory. -/
theorem Call.safe_iff (env : CallEnv σ) (call : Call) : call.Safe env ↔ call.Guarded env := by
  have hread : ∀ {α : Type} {read : Str → Option α}, read [] = none →
      (∀ path, path ≠ [] → ∃ a, read path = some a) →
      ∀ path, (read path).isSome ↔ path ≠ [] := by
    intro α read hnil hne path
    by_cases h : path = []
    · simp [h, hnil]
    · obtain ⟨a, ha⟩ := hne path h
      simp [h, ha]
  cases call with
  | rootDirectory path =>
      exact hread rootDirectory_nil (fun _ h => ⟨_, rootDirectory_of_ne h⟩) path
  | root path => exact hread rfl (fun _ h => ⟨_, root_of_ne h⟩) path
  | hasRootDirectory path => exact hread rfl (fun _ h => ⟨_, hasRootDirectory_of_ne h⟩) path
  | isAbsolute path => exact hread rfl (fun _ h => ⟨_, isAbsolute_of_ne h⟩) path
  | join path other => exact hread (join_nil path) (fun _ h => ⟨_, join_of_ne h⟩) other
  | absolute path =>
      rw [Safe, absolute_eq]
      exact iff_of_true rfl trivial
  | absoluteBase path base =>
      exact hread (absoluteBase_nil env.cwd base)
        (fun _ h => ⟨_, absoluteBase_of_ne env.cwd h base⟩) path
  | withSuffix path newSuffix =>
      rw [Safe, Guarded, withSuffix_eq, ← not_or, ← fileName_eq_nil_iff, ← not_and_or]
      by_cases hnone : fileName .posix path = [] ∧ newSuffix = []
      · rw [if_pos hnone]
        exact iff_of_false Bool.false_ne_true (not_not.mpr hnone)
      · rw [if_neg hnone]
        exact iff_of_true rfl hnone
  | normal path =>
      rw [Safe, normal_eq]
      exact iff_of_true rfl trivial
  | mkdir path => exact mkdir_isSome_iff

/-- `join("a", "")` asks the empty path for its first character. -/
theorem Call.not_safe_join :
    ¬ ∀ (env : CallEnv Unit) (call : Call), call.Safe env := by
  intro h
  exact absurd (h ⟨[], id, fun _ _ => .ok (), ()⟩ (.join "a".toList [])) (by
    rw [Safe, join_nil]
    decide)

end Calls

end Checked

end Ffilesystem
