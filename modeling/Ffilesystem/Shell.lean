import Ffilesystem.Absolute
import Ffilesystem.Containment
import Ffilesystem.Edits
import Ffilesystem.Environment
import Ffilesystem.FileName
import Ffilesystem.Library.Part
import Ffilesystem.Library.Session
import Ffilesystem.SafeName
import Ffilesystem.WindowsNormal

/-!
# The Ffs program on POSIX systems, built without `<filesystem>`

`main` reads lines, cuts each into words, and looks the first word up among the
commands that take as many words as there are behind it. Most commands only print
what they find out. The others work on the files, on the current directory or on the
environment, one after the other until the user quits.

What one line does to the files is a series of edits (`edits_step`). The results
about sessions of any length follow from it: the content of a file that stays is
changed by `touch` alone, be it the command or the one in the probe for case
sensitivity, no session makes a hard link, and without the commands that remove,
rename, change the directory or set modes every path goes on naming what it named.

The state has no modes, and its current directory is there. What the system is like
after a line that sets modes, or takes the current directory away where the system
lets it, is an answer of the environment, of which only the contents are known.
-/

namespace Ffilesystem

open FileTree Lexical

/-- What the commands work on. -/
structure Shell where
  sys : System
  env : Environ

/-- What the environment decides while a line is run. -/
structure Answers where
  touch : TouchEnv
  probe : ProbeEnv
  copy : CopyEnv
  mkdir : Refusals
  /-- Whether a call on a directory entry is refused although it could be done. -/
  refused : Bool
  chdirDenied : Bool
  /-- Whether the system refuses to take the current directory away, as POSIX lets it.
  This is asked only where a path names that directory and nothing stands in it. -/
  busy : Bool
  /-- What `get_permissions` finds before and after the modes are set. -/
  permsBefore : Str
  permsAfter : Str
  /-- What a step that the state does not show reports and leaves. -/
  unseen : (sys : System) → { r : Bool × System // r.2.data = sys.data }
  envFull : Bool
  profileDir : Str

/-- A command prints a text and may change what it works on. -/
abbrev Command := Shell → Str × Shell

def showBool (b : Bool) : Str := if b then ['1'] else ['0']

def ask (f : Shell → Str) : Command := fun sh => (f sh, sh)

/-- A command that works on the files and prints whether it succeeded. -/
def act (f : System → Bool × System) : Command := fun sh =>
  (showBool (f sh.sys).1, { sh with sys := (f sh.sys).2 })

/-- A call that may remove or replace what has a name. -/
def takingAway (ans : Answers) (path : Str) (f : System → Bool × System) :
    System → Bool × System := fun sys =>
  if sys.namesEmptyCwd path && !ans.busy then (ans.unseen sys).1 else f sys

/-- A command that sets a variable. -/
def actEnv (full : Bool) (said name value : Str) : Command := fun sh =>
  (said ++ showBool (setenv full sh.env name value).1,
    { sh with env := (setenv full sh.env name value).2 })

def touchCommand (env : TouchEnv) (a1 : Str) : Command := fun sh =>
  let r := touch .c env sh.sys (.ofStr a1)
  ("touch ".toList ++ a1 ++ ' ' :: showBool r.1, { sh with sys := r.2 })

def probeCommand : Str := "ffilesystem::is_case_sensitive".toList

/-- The command `chdir`. `get_cwd` finds out the directory. -/
def chdirCommand (denied : Bool) (a1 : Str) : Command := fun sh =>
  let r := setCwd denied sh.sys a1
  ("cwd: ".toList ++ sh.sys.getCwd ++
    (if r.1 then "new cwd: ".toList ++ r.2.getCwd else []), { sh with sys := r.2 })

/-- What `set_perm` asks of a right by its second word. -/
def askedPerm (a2 : Str) (letter : Char) : Int :=
  if Scan.containsPart a2 ['-', letter] then -1
  else if Scan.containsPart a2 ['+', letter] then 1
  else 0

def showAsked (n : Int) : Str := if n < 0 then ['-', '1'] else if n = 0 then ['0'] else ['1']

def setPermCommand (ans : Answers) (a1 a2 : Str) : Command := fun sh =>
  if ans.permsBefore.isEmpty then ([], sh)
  else
    ("before chmod ".toList ++ a1 ++ ' ' :: ans.permsBefore ++ "\nsetting r,w,x ".toList ++
        showAsked (askedPerm a2 'r') ++ ' ' :: showAsked (askedPerm a2 'w') ++ ' ' ::
        showAsked (askedPerm a2 'x') ++ ['\n'] ++
        (if ans.permsAfter.isEmpty then []
          else "after chmod ".toList ++ a1 ++ ' ' :: ans.permsAfter ++ ['\n']),
      { sh with sys := (ans.unseen sh.sys).1.2 })

/-- The commands without an argument. -/
def noArg (ans : Answers) : List (Str × Command) :=
  [("cwd".toList, ask fun sh => sh.sys.getCwd),
    ("homedir".toList, ask fun sh => getHomedir .posix (homeEnv sh.env ans.profileDir)),
    ("tempdir".toList, ask fun sh => getTempdir .c sh.env sh.sys),
    ("is_windows".toList, ask fun _ => showBool (Platform.isWindows .posix)),
    ("filesep".toList, ask fun _ => [Platform.fileSeparator .posix]),
    ("pathsep".toList, ask fun _ => [Platform.pathSeparator .posix])]

/-- The commands with one argument that only print. The first two are for the other
backend. -/
def oneArgAsks (ans : Answers) (a1 : Str) : List (Str × (Shell → Str)) :=
  [("lexically_normal".toList, fun _ => []),
    ("make_preferred".toList, fun _ => []),
    ("parent".toList, fun _ => parent .c a1),
    ("suffix".toList, fun _ => suffix .posix a1),
    ("canonical".toList, fun sh => canonical sh.sys a1 true),
    ("weakly_canonical".toList, fun sh => canonical sh.sys a1 false),
    ("resolve".toList, fun sh => resolve sh.sys a1 true),
    ("weakly_resolve".toList, fun sh => resolve sh.sys a1 false),
    ("normal".toList, fun _ => normal .posix a1),
    ("is_reserved".toList, fun _ => showBool (isReserved .posix a1)),
    ("is_safe".toList, fun _ => showBool (isSafeName .posix a1)),
    ("getenv".toList, fun sh => (getenv sh.env a1).getD []),
    ("realpath".toList, fun sh => sh.sys.realPath a1),
    ("as_posix".toList, fun _ => asPosix .posix a1),
    ("as_windows".toList, fun _ => asWindows .posix a1),
    ("expanduser".toList, fun sh => expanduser .posix (homeEnv sh.env ans.profileDir) a1),
    ("root".toList, fun _ => root .posix a1),
    ("root_directory".toList, fun _ => rootDirectory .posix a1),
    ("root_name".toList, fun _ => rootName .posix a1),
    ("drop_slash".toList, fun _ => dropSlash .posix a1),
    ("filename".toList, fun _ => fileName .posix a1),
    ("has_filename".toList, fun _ => showBool (hasFilename .posix a1)),
    ("has_root_directory".toList, fun _ => showBool (hasRootDirectory .posix a1)),
    ("has_root_name".toList, fun _ => showBool (hasRootName .posix a1)),
    ("is_absolute".toList, fun _ => showBool (isAbsolute .posix a1)),
    ("is_dir".toList, fun sh => showBool (sh.sys.isDirectory a1)),
    ("is_file".toList, fun sh => showBool (sh.sys.isFile a1)),
    ("is_symlink".toList, fun sh => showBool (isSymlink sh.sys a1)),
    ("stem".toList, fun _ => stem .posix a1),
    ("exists".toList, fun sh => showBool (pathExists sh.sys a1)),
    ("absolute".toList, fun sh => absolute sh.sys a1),
    ("split".toList, fun _ => (splitFilesep .posix a1).flatMap (· ++ ['\n']))]

/-- The commands with one argument that do something. -/
def oneArgActs (ans : Answers) (a1 : Str) : List (Str × Command) :=
  [("touch".toList, touchCommand ans.touch a1),
    ("set_modtime".toList, ask fun sh => showBool (setModtime .c ans.touch sh.sys a1)),
    (probeCommand, act (takingAway ans (joinOf .c a1 (mixedName ans.probe.random)) fun sys =>
      isCaseSensitive .c ans.probe sys a1)),
    ("setenv".toList, actEnv ans.envFull ("unset ".toList ++ a1 ++ ['\n']) a1 []),
    ("mkdir".toList, act fun sys => mkdir ans.mkdir sys a1),
    ("remove".toList, act (takingAway ans a1 fun sys => remove ans.refused sys a1)),
    ("chdir".toList, chdirCommand ans.chdirDenied a1),
    ("set_cwd".toList, chdirCommand ans.chdirDenied a1)]

/-- The commands with two arguments that only print. `relative` and `proximate` are
for the other backend. -/
def twoArgAsks (a1 a2 : Str) : List (Str × (Shell → Str)) :=
  [("same".toList, fun sh => showBool (sh.sys.equivalent a1 a2)),
    ("join".toList, fun _ => join .posix a1 a2),
    ("with_suffix".toList, fun _ => withSuffix a1 a2),
    ("is_prefix".toList, fun _ => showBool (isPrefix .posix a1 a2)),
    ("is_subdir".toList, fun _ => showBool (isSubdir .posix a1 a2)),
    ("relative".toList, fun _ => []),
    ("proximate".toList, fun _ => []),
    ("absolute".toList, fun sh => absoluteBase sh.sys.getCwd a1 a2)]

/-- The commands with two arguments that do something. `copy` never overwrites. -/
def twoArgActs (ans : Answers) (a1 a2 : Str) : List (Str × Command) :=
  [("setenv".toList, actEnv ans.envFull [] a1 a2),
    ("copy".toList, act fun sys =>
      ((copyFile .c ans.copy sys a1 a2 false).ok, (copyFile .c ans.copy sys a1 a2 false).sys)),
    ("create_symlink".toList, act fun sys => sys.createSymlink ans.refused a1 a2),
    ("rename".toList, act (takingAway ans a2 fun sys => rename ans.refused sys a1 a2)),
    ("set_perm".toList, setPermCommand ans a1 a2)]

def asks (table : List (Str × (Shell → Str))) : List (Str × Command) :=
  table.map fun entry => (entry.1, ask entry.2)

def oneArg (ans : Answers) (a1 : Str) : List (Str × Command) :=
  asks (oneArgAsks ans a1) ++ oneArgActs ans a1

def twoArg (ans : Answers) (a1 a2 : Str) : List (Str × Command) :=
  asks (twoArgAsks a1 a2) ++ twoArgActs ans a1 a2

/-- The commands for the words behind the first one. -/
def commands (ans : Answers) : List Str → List (Str × Command)
  | [] => noArg ans
  | [a1] => oneArg ans a1
  | [a1, a2] => twoArg ans a1 a2
  | _ => []

def isSpace (c : Char) : Bool := c ∈ [' ', '\t', '\n', '\x0b', '\x0c', '\r']

/-- The words that `operator>>` takes from a line, one after the other. -/
def words (line : Str) : List Str := (line.splitOnP isSpace).filter (!·.isEmpty)

/-- A line that ends the program. -/
def isQuit (line : Str) : Bool :=
  line = "\x04".toList ∨ line = "q".toList ∨ line = "quit".toList ∨ line = "exit".toList

/-- The body of the loop in `main`, with what it prints to the standard output. -/
def turn (ans : Answers) (line : Str) (sh : Shell) : Str × Shell :=
  match words line with
  | [] => ([], sh)
  | name :: args =>
      match (commands ans args).lookup name with
      | some command => ((command sh).1 ++ ['\n'], (command sh).2)
      | none => ([], sh)

/-- A line of input, with what the environment decides while it is run. -/
abbrev Input := Answers × Str

def step (sh : Shell) (input : Input) : Shell := (turn input.1 input.2 sh).2

/-- What the program leaves when it ends. -/
def session (sh : Shell) (inputs : List Input) : Shell :=
  Session.after step sh (inputs.takeWhile (!isQuit ·.2))

section Turn

variable {ans : Answers} {sh : Shell}

/-- The words of a line lead to a call of `touch`. -/
inductive Touches (ans : Answers) : List Str → TouchEnv → Str → Prop
  | touch (path : Str) : Touches ans ["touch".toList, path] ans.touch path
  | probe (path : Str) : Touches ans [probeCommand, path] ans.probe.toTouchEnv
      (joinOf .c path (mixedName ans.probe.random))

/-- The files that a line may write to: one that is not there yet, or one that
`touch` opens because it cannot set its time. -/
def Writes (sh : Shell) (input : Input) (ino : Nat) : Prop :=
  ¬ HasInode sh.sys ino ∨ ∃ env path, Touches input.1 (words input.2) env path ∧
    setModtime .c env sh.sys path = false ∧ Opens env sh.sys path ino

/-- The commands that may take a name away. The probe removes what has the name that it
made up. -/
def takers : List Str := ["remove".toList, "rename".toList, probeCommand]

/-- The words of a line lead to a call that may take what has the name away. -/
inductive Takes (ans : Answers) : List Str → Str → Prop
  | remove (path : Str) : Takes ans ["remove".toList, path] path
  | rename (old new : Str) : Takes ans ["rename".toList, old, new] new
  | probe (path : Str) : Takes ans [probeCommand, path]
      (joinOf .c path (mixedName ans.probe.random))

/-- The words set modes, or they take the current directory away. -/
def UnsettledBy (ans : Answers) (sys : System) (args : List Str) : Prop :=
  args.head? = some "set_perm".toList ∨
    ans.busy = false ∧ ∃ path, Takes ans args path ∧ sys.namesEmptyCwd path = true

/-- The line changes the system in a way that the state does not show. -/
def Unsettles (sh : Shell) (input : Input) : Prop :=
  UnsettledBy input.1 sh.sys (words input.2)

/-- The commands that may change what a path names. -/
def movers : List Str :=
  ["chdir".toList, "set_cwd".toList, "set_perm".toList] ++ takers

/-- The line may change what a path names. -/
def Displaces (input : Input) : Prop := ∃ name ∈ movers, (words input.2).head? = some name

instance : DecidablePred Displaces := fun input => by
  unfold Displaces
  infer_instance

theorem Takes.head_mem {args : List Str} {path : Str} (h : Takes ans args path) :
    ∃ name ∈ takers, args.head? = some name := by
  cases h with
  | remove path => exact ⟨_, by decide, rfl⟩
  | rename old new => exact ⟨_, by decide, rfl⟩
  | probe path => exact ⟨_, by decide, rfl⟩

theorem Touches.head_eq {args : List Str} {env : TouchEnv} {path : Str}
    (h : Touches ans args env path) :
    args.head? = some "touch".toList ∨ args.head? = some probeCommand := by
  cases h with
  | touch path => exact .inl rfl
  | probe path => exact .inr rfl

/-- A call that may take the current directory away is a series of edits, if it is one
where it does not. -/
theorem edits_takingAway {W : Nat → Prop} {S : Prop} {args : List Str} {path : Str}
    {f : System → Bool × System} {sys : System}
    (h : Edits W S (UnsettledBy ans sys args) sys (f sys).2) (htakes : Takes ans args path) :
    Edits W S (UnsettledBy ans sys args) sys (takingAway ans path f sys).2 := by
  rw [takingAway]
  split
  · rename_i hcond
    simp only [Bool.and_eq_true, Bool.not_eq_true'] at hcond
    exact (Edit.unseen (ans.unseen sys).2 (.inr ⟨hcond.2, path, htakes, hcond.1⟩)).edits
  · exact h

/-- What the commands for the words `args` do is a series of edits. -/
theorem edits_commands (ans : Answers) (args : List Str) (sh : Shell) :
    ∀ entry ∈ commands ans args,
      Edits (fun ino => ¬ HasInode sh.sys ino ∨ ∃ env path, Touches ans (entry.1 :: args) env path ∧
          setModtime .c env sh.sys path = false ∧ Opens env sh.sys path ino)
        (entry.1 ∈ movers) (UnsettledBy ans sh.sys (entry.1 :: args)) sh.sys
        (entry.2 sh).2.sys := by
  have hasks : ∀ (table : List (Str × (Shell → Str))), ∀ entry ∈ asks table,
      (entry.2 sh).2.sys = sh.sys := by
    intro table entry hentry
    obtain ⟨asked, -, rfl⟩ := List.mem_map.mp hentry
    rfl
  have htaker : ∀ name ∈ takers, name ∈ movers := fun name h => List.mem_append_right _ h
  have hremove : "remove".toList ∈ takers := by decide
  have hrename : "rename".toList ∈ takers := by decide
  have hprobe : probeCommand ∈ takers := by decide
  have hchdir : "chdir".toList ∈ movers := by decide
  have hsetCwd : "set_cwd".toList ∈ movers := by decide
  intro entry hentry
  match args, hentry with
  | [], hentry =>
      have hsame : (entry.2 sh).2.sys = sh.sys := by
        simp only [commands, noArg, List.mem_cons, List.not_mem_nil, or_false] at hentry
        rcases hentry with rfl | rfl | rfl | rfl | rfl | rfl <;> rfl
      rw [hsame]
  | [a1], hentry =>
      rcases List.mem_append.mp hentry with hask | hact
      · rw [hasks _ _ hask]
      · simp only [oneArgActs, List.mem_cons, List.not_mem_nil, or_false] at hact
        rcases hact with rfl | rfl | rfl | rfl | rfl | rfl | rfl | rfl
        · refine (edits_touch .c ans.touch sh.sys (.ofStr a1)).mono (fun ino hino => ?_) id id
          refine hino.imp_right fun hopens => ⟨ans.touch, a1, .touch a1, ?_⟩
          rwa [View.text_ofStr, View.fromData_ofStr] at hopens
        · exact .refl
        · refine edits_takingAway ?_ (.probe a1)
          refine (edits_isCaseSensitive .c ans.probe sh.sys a1).mono (fun ino hino => ?_)
            (fun _ => htaker _ hprobe) id
          exact hino.imp_right fun hopens => ⟨ans.probe.toTouchEnv, _, .probe a1, hopens⟩
        · exact .refl
        · exact edits_mkdir ans.mkdir sh.sys a1
        · refine edits_takingAway ?_ (.remove a1)
          exact (edits_remove ans.refused sh.sys a1).mono (fun ino hino => hino)
            (fun _ => htaker _ hremove) id
        · exact (edits_setCwd ans.chdirDenied sh.sys a1).mono (fun ino hino => hino)
            (fun _ => hchdir) id
        · exact (edits_setCwd ans.chdirDenied sh.sys a1).mono (fun ino hino => hino)
            (fun _ => hsetCwd) id
  | [a1, a2], hentry =>
      rcases List.mem_append.mp hentry with hask | hact
      · rw [hasks _ _ hask]
      · simp only [twoArgActs, List.mem_cons, List.not_mem_nil, or_false] at hact
        rcases hact with rfl | rfl | rfl | rfl | rfl
        · exact .refl
        · refine (edits_copyFile ans.copy sh.sys a1 a2 false).mono (fun ino hino => ?_) id id
          exact .inl (hino.resolve_right fun h => Bool.false_ne_true h.1)
        · exact edits_createSymlink ans.refused sh.sys a1 a2
        · refine edits_takingAway ?_ (.rename a1 a2)
          exact (edits_rename ans.refused sh.sys a1 a2).mono (fun ino hino => hino)
            (fun _ => htaker _ hrename) id
        · dsimp only [setPermCommand]
          split
          · exact .refl
          · exact (Edit.unseen (ans.unseen sh.sys).2 (.inl rfl)).edits
  | _ :: _ :: _ :: _, hentry => exact absurd hentry List.not_mem_nil

/-- What one line does is a series of edits. -/
theorem edits_step (sh : Shell) (input : Input) :
    Edits (Writes sh input) (Displaces input) (Unsettles sh input) sh.sys (step sh input).sys := by
  rw [step, turn]
  split
  · exact .refl
  · rename_i name args hwords
    split
    · rename_i command hfind
      have hmem : (name, command) ∈ commands input.1 args := by
        obtain ⟨front, back, hcut, -⟩ := List.lookup_eq_some_iff.mp hfind
        rw [hcut]
        exact List.mem_append_right _ List.mem_cons_self
      have hhead : (words input.2).head? = some name := by rw [hwords, List.head?_cons]
      refine (edits_commands input.1 args sh _ hmem).mono (fun ino hino => ?_)
        (fun hname => ⟨name, hname, hhead⟩) fun hunseen => ?_
      · rw [Writes, hwords]
        exact hino
      · rw [Unsettles, hwords]
        exact hunseen
    · exact .refl

theorem Unsettles.displaces {input : Input} (h : Unsettles sh input) : Displaces input := by
  rcases h with hperm | ⟨-, path, htakes, -⟩
  · exact ⟨_, List.mem_append_left _ (by decide), hperm⟩
  · obtain ⟨name, hname, hhead⟩ := htakes.head_mem
    exact ⟨name, List.mem_append_right _ hname, hhead⟩

end Turn

section Sessions

/-- Nothing is refused, and the caller owns every file. -/
def willing : Answers where
  touch := ⟨fun _ => true, fun _ => true, none, none⟩
  probe := ⟨⟨fun _ => true, fun _ => true, none, none⟩, none, "0123456789abcdef".toList⟩
  copy := { fullDisk with stdCopyFile := none }
  mkdir := fun _ => none
  refused := false
  chdirDenied := false
  busy := true
  permsBefore := []
  permsAfter := []
  unseen := fun sys => ⟨(true, sys), rfl⟩
  envFull := false
  profileDir := []

def linkedDirShell : Shell := ⟨linkedDir, []⟩

variable {sh : Shell} {inputs : List Input}

theorem mem_of_mem_takeWhile {input : Input} (h : input ∈ inputs.takeWhile (!isQuit ·.2)) :
    input ∈ inputs :=
  List.takeWhile_subset _ h

/-- The content of a file that is there whenever a line is run stays the same, as
long as no `touch` opens the file. -/
theorem session_data {ino : Nat}
    (h : Session.Quietly step (fun sh input => ¬ Writes sh input ino) sh
      (inputs.takeWhile (!isQuit ·.2))) :
    (session sh inputs).sys.data ino = sh.sys.data ino :=
  Session.after_frame (fun sh : Shell => sh.sys.data ino)
    (fun sh input hquiet => (edits_step sh input).data_eq hquiet) h

theorem session_data_linkedDir :
    (session linkedDirShell [(willing, "remove l".toList),
      (willing, "rename d/f g".toList)]).sys.data 0 = linkedDir.data 0 := by
  apply session_data
  refine .cons ?_ (.cons ?_ (Session.quietly_nil _ _))
  · rintro (hgone | ⟨env, path, htouches, -⟩)
    · exact hgone (by decide +kernel)
    · exact absurd htouches.head_eq (by decide +kernel)
  · rintro (hgone | ⟨env, path, htouches, -⟩)
    · exact hgone (by decide +kernel)
    · exact absurd htouches.head_eq (by decide +kernel)

theorem grows_after (sh : Shell) {lines : List Input} (h : ∀ input ∈ lines, ¬ Displaces input) :
    sh.sys.Grows (Session.after step sh lines).sys :=
  Session.after_invariant (fun sh' : Shell => sh.sys.Grows sh'.sys)
    (fun sh' input hmem hgrows => hgrows.trans ((edits_step sh' input).grows (h input hmem)
      fun hunseen => h input hmem hunseen.displaces))
    (.refl _)

theorem hasInode_of_stat {sys : System} {path : Str} {R : List FileName} {name : FileName}
    {ino : Nat} (h : sys.stat path = .ok (.file R name ino)) : HasInode sys ino :=
  ⟨⟨R, name, .file ino⟩, System.stat_stands h, rfl⟩

/-- Without `touch`, the probe for case sensitivity, `remove`, `rename`, `chdir` and
`set_perm` every path that named something goes on naming it, and every file goes on reading
as it did. -/
theorem session_keeps (sh : Shell) (h : ∀ input ∈ inputs, ¬ Displaces input)
    (htouch : ∀ input ∈ inputs, (words input.2).head? ≠ some "touch".toList) :
    (∀ path spot, sh.sys.stat path = .ok spot → (session sh inputs).sys.stat path = .ok spot) ∧
      ∀ path bytes, sh.sys.readFile path = some bytes →
        (session sh inputs).sys.readFile path = some bytes := by
  have hstat : ∀ path spot, sh.sys.stat path = .ok spot →
      (session sh inputs).sys.stat path = .ok spot := by
    intro path spot hspot
    exact (grows_after sh fun input hmem => h input (mem_of_mem_takeWhile hmem)).stat hspot
  refine ⟨hstat, fun path bytes hread => ?_⟩
  obtain ⟨R, name, ino, hspot, hregular, rfl⟩ := readFile_eq_some.mp hread
  refine readFile_eq_some.mpr ⟨R, name, ino, hstat _ _ hspot, ?_, ?_⟩
  · have hgrows := grows_after sh fun input hmem => h input (mem_of_mem_takeWhile hmem)
    rw [session, hgrows.isSpecial_eq, hregular]
  apply session_data
  intro front input rest hcut
  -- the file is still there when the line is run
  have hmem : ∀ x ∈ front ++ input :: rest, x ∈ inputs :=
    fun x hx => mem_of_mem_takeWhile (hcut ▸ hx)
  have hgrows := grows_after sh fun x hx => h x (hmem x (List.mem_append_left _ hx))
  have hinput := hmem input (List.mem_append_right _ List.mem_cons_self)
  rintro (hgone | ⟨env, touched, htouches, -⟩)
  · exact hgone (hasInode_of_stat (hgrows.stat hspot))
  · rcases htouches.head_eq with hhead | hhead
    · exact htouch input hinput hhead
    · exact h input hinput ⟨probeCommand, by decide, hhead⟩

theorem session_keeps_linkedDir :
    let sh := session linkedDirShell [(willing, "mkdir d/x/y".toList),
      (willing, "copy l/f d/x/g".toList), (willing, "create_symlink x/y d/z".toList)]
    (∀ path spot, linkedDir.stat path = .ok spot → sh.sys.stat path = .ok spot) ∧
      ∀ path bytes, linkedDir.readFile path = some bytes →
        sh.sys.readFile path = some bytes :=
  session_keeps linkedDirShell (by decide +kernel) (by decide +kernel)

end Sessions

end Ffilesystem
