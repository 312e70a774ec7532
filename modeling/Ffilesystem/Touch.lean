import Ffilesystem.System

/-!
# Touching a file

`touch` first sets the modification time and, when that fails for any reason,
opens an output stream on the path in order to create the file. Opening the
stream truncates a file that is there already.

The path is a `std::string_view`, a window into a longer buffer. The two steps
read it differently: the first makes a string of the window, the second hands on
the pointer to its start.
-/

namespace Ffilesystem

open FileTree Lexical

/-- A `std::string_view` into a buffer that ends in a null character. -/
structure View where
  buffer : Str
  offset : Nat
  length : Nat
  fits : offset + length ≤ buffer.length

namespace View

/-- The characters of the view. -/
def text (v : View) : Str := Scan.substr v.buffer v.offset v.length

/-- What a C function reads from `data()`. -/
def fromData (v : View) : Str := v.buffer.drop v.offset

/-- The view of a whole string. -/
def ofStr (s : Str) : View := ⟨s, 0, s.length, by simp⟩

@[simp] theorem text_ofStr (s : Str) : (ofStr s).text = s := List.take_length

@[simp] theorem fromData_ofStr (s : Str) : (ofStr s).fromData = s := rfl

end View

/-- The caller's rights, and the calls that the environment makes fail although
they could have succeeded. -/
structure TouchEnv where
  owns : Spot FileName → Bool
  mayWrite : Spot FileName → Bool
  utime : Option Errno
  openDest : Option Errno

/-- The rule for setting the modification time to now: the owner may, and where
no explicit time is passed, so may everybody who may write. -/
def maySetTime (b : Backend) (env : TouchEnv) (spot : Spot FileName) : Bool :=
  env.owns spot ||
    match b with
    | .c => env.mayWrite spot
    | .cxxFilesystem => false

def setModtime (b : Backend) (env : TouchEnv) (sys : System) (path : Str) : Bool :=
  match sys.stat path with
  | .ok spot => env.utime.isNone && maySetTime b env spot
  | .error _ => false

def mayOpen (env : TouchEnv) (sys : System) (path : Str) : Bool :=
  match sys.stat path with
  | .ok spot => env.mayWrite spot
  | .error _ => true

/-- The default constructor mode of `std::ofstream`: create the file, or empty
the one that is there. -/
def openTruncate (env : TouchEnv) (sys : System) (path : Str) : Bool × System :=
  if env.openDest.isNone && mayOpen env sys path then
    match sys.openCreate path false with
    | .ok (sys, ino) => (true, sys.withData ino [])
    | .error _ => (false, sys)
  else (false, sys)

def touch (b : Backend) (env : TouchEnv) (sys : System) (path : View) : Bool × System :=
  if setModtime b env sys path.text then (true, sys)
  else openTruncate env sys path.fromData

section Content

variable {b : Backend} {env : TouchEnv} {sys : System}

/-- The caller can open the file with inode `ino` for writing through `path`. -/
def Opens (env : TouchEnv) (sys : System) (path : Str) (ino : Nat) : Prop :=
  env.openDest = none ∧
    ∃ R name, sys.stat path = .ok (.file R name ino) ∧ env.mayWrite (.file R name ino) = true

theorem openCreate_of_stat {path : Str} {R : List FileName} {name : FileName} {ino : Nat}
    (h : sys.stat path = .ok (.file R name ino)) : sys.openCreate path false = .ok (sys, ino) := by
  obtain ⟨hne, left, hwalk⟩ := System.stat_eq_ok h
  simp only [System.openCreate, if_neg hne, hwalk]
  rfl

theorem openTruncate_data_of_opens {path : Str} {ino : Nat} (h : Opens env sys path ino) :
    (openTruncate env sys path).2.data ino = [] := by
  obtain ⟨hopen, R, name, hstat, hwrite⟩ := h
  have hcond : (env.openDest.isNone && mayOpen env sys path) = true := by
    rw [hopen, mayOpen, hstat]
    exact hwrite
  rw [openTruncate, if_pos hcond, openCreate_of_stat hstat]
  exact Function.update_self _ _ _

theorem openTruncate_data_of_not_opens {path : Str} {ino : Nat} (hino : ino ≠ sys.freshIno)
    (h : ¬ Opens env sys path ino) : (openTruncate env sys path).2.data ino = sys.data ino := by
  rw [openTruncate]
  split
  · rename_i hcond
    rw [Bool.and_eq_true, Option.isNone_iff_eq_none] at hcond
    split
    · rename_i sys' ino' hcreate
      cases System.openCreate_cases hcreate with
      | inl hsame =>
          obtain ⟨-, rfl, R, name, hstat⟩ := hsame
          have hne : ino ≠ ino' := by
            rintro rfl
            rw [mayOpen, hstat] at hcond
            exact h ⟨hcond.1, R, name, hstat, hcond.2⟩
          exact Function.update_of_ne hne _ _
      | inr hnew =>
          obtain ⟨rfl, -, -, -, hdata⟩ := hnew
          exact (Function.update_of_ne hino _ _).trans
            (hdata ▸ Function.update_of_ne hino _ _)
    · rfl
  · rfl

theorem setModtime_eq_true_iff {path : Str} {spot : Spot FileName}
    (h : sys.stat path = .ok spot) :
    setModtime b env sys path = true ↔ env.utime = none ∧ maySetTime b env spot = true := by
  simp only [setModtime, h, Bool.and_eq_true, Option.isNone_iff_eq_none]

/-- `touch` keeps the content of a regular file if and only if the time of the
file can be set, or the pointer of the path does not lead to an opening of that
file, or there is nothing in the file to lose. -/
theorem touch_keeps_content_iff (b : Backend) (env : TouchEnv) (sys : System) (path : View)
    {R : List FileName} {name : FileName} {ino : Nat}
    (hfile : sys.stat path.text = .ok (.file R name ino)) :
    (touch b env sys path).2.data ino = sys.data ino ↔
      (env.utime = none ∧ maySetTime b env (.file R name ino) = true) ∨
        ¬ Opens env sys path.fromData ino ∨ sys.data ino = [] := by
  have hino := System.ne_freshIno_of_stat hfile
  rw [← setModtime_eq_true_iff hfile, touch]
  by_cases hset : setModtime b env sys path.text = true
  · rw [if_pos hset]
    exact ⟨fun _ => .inl hset, fun _ => rfl⟩
  rw [if_neg hset]
  by_cases hopens : Opens env sys path.fromData ino
  · rw [openTruncate_data_of_opens hopens]
    constructor
    · intro h
      exact .inr (.inr h.symm)
    · rintro (h | h | h)
      · exact absurd h hset
      · exact absurd hopens h
      · exact h.symm
  · rw [openTruncate_data_of_not_opens hino hopens]
    exact ⟨fun _ => .inr (.inl hopens), fun _ => rfl⟩

/-- A caller who may write every file and owns none. -/
def writer : TouchEnv where
  owns _ := false
  mayWrite _ := true
  utime := none
  openDest := none

theorem touch_keeps_content_at :
    (touch .c writer twoFiles (.ofStr ['b'])).2.data 1 = twoFiles.data 1 ↔
      (writer.utime = none ∧
          maySetTime .c writer (.file [] ⟨['b'], by decide⟩ 1) = true) ∨
        ¬ Opens writer twoFiles (View.ofStr ['b']).fromData 1 ∨ twoFiles.data 1 = [] :=
  touch_keeps_content_iff .c writer twoFiles (.ofStr ['b']) (R := []) (by decide +kernel)

/-- In the `<filesystem>` backend, a caller who may write `b` but does not own it
empties it. -/
theorem touch_empties_file :
    ¬ (touch .cxxFilesystem writer twoFiles (.ofStr ['b'])).2.data 1 = twoFiles.data 1 := by
  decide +kernel

end Content

/-- A call of `touch`, with the C string that names the file. -/
inductive TouchCall
  | setTime (name : Str)
  | create (name : Str)
  deriving DecidableEq, Repr

namespace TouchCall

def name : TouchCall → Str
  | setTime name => name
  | create name => name

def run (b : Backend) (env : TouchEnv) (sys : System) : TouchCall → Bool × System
  | setTime name => (setModtime b env sys name, sys)
  | create name => openTruncate env sys name

end TouchCall

/-- The calls that `touch` makes, by the outcome of the first one. -/
def touchCalls (modtimeSet : Bool) (path : View) : List TouchCall :=
  .setTime (cStr path.text) :: if modtimeSet then [] else [.create (cStr path.fromData)]

section Names

/-- The character behind a view ends the string, or there is none in the buffer. -/
def View.Terminated (v : View) : Prop :=
  ∀ c, v.buffer[v.offset + v.length]? = some c → c = '\x00'

theorem stat_cStr (sys : System) (path : Str) : sys.stat (cStr path) = sys.stat path := by
  simp only [System.stat, cStr_of_not_mem (nul_not_mem_cStr path)]

theorem openTruncate_cStr (env : TouchEnv) (sys : System) (path : Str) :
    openTruncate env sys (cStr path) = openTruncate env sys path := by
  simp only [openTruncate, mayOpen, stat_cStr, System.openCreate, System.locate,
    cStr_of_not_mem (nul_not_mem_cStr path)]

/-- The result of `touch` is that of the last call it makes. -/
theorem touch_eq_run (b : Backend) (env : TouchEnv) (sys : System) (path : View) :
    touch b env sys path =
      (touchCalls (setModtime b env sys path.text) path).foldl
        (fun result call => call.run b env result.2) (false, sys) := by
  have hset : setModtime b env sys (cStr path.text) = setModtime b env sys path.text := by
    rw [setModtime, setModtime, stat_cStr]
  rw [touch, touchCalls]
  split
  · rename_i hok
    rw [List.foldl_cons, List.foldl_nil, TouchCall.run, hset, hok]
  · rw [List.foldl_cons, List.foldl_cons, List.foldl_nil, TouchCall.run, TouchCall.run,
      openTruncate_cStr]

/-- Behind the text of a view the buffer goes on. -/
theorem View.fromData_eq (v : View) :
    v.fromData = v.text ++ v.buffer.drop (v.offset + v.length) := by
  rw [fromData, text, Scan.substr, ← List.drop_drop, List.take_append_drop]

theorem View.cStr_fromData_eq_iff (v : View) :
    cStr v.fromData = cStr v.text ↔ '\x00' ∈ v.text ∨ v.Terminated := by
  rw [fromData_eq]
  by_cases hnul : '\x00' ∈ v.text
  · exact iff_of_true (cStr_append_of_mem hnul _) (.inl hnul)
  · rw [cStr_append_of_not_mem hnul, cStr_of_not_mem hnul, List.append_right_eq_self,
      or_iff_right hnul, View.Terminated, ← List.head?_drop]
    cases v.buffer.drop (v.offset + v.length) with
    | nil => exact iff_of_true rfl (by simp)
    | cons c rest =>
        by_cases hc : c = '\x00'
        · rw [hc]
          exact iff_of_true rfl (fun d hd => (Option.some.inj hd).symm)
        · rw [cStr_cons_of_ne hc]
          exact iff_of_false (List.cons_ne_nil _ _) (fun h => hc (h c rfl))

/-- All calls of `touch` name the text of its argument if and only if the first one
succeeds, or the text ends where a C string does. -/
theorem touchCalls_name_iff (modtimeSet : Bool) (path : View) :
    (∀ call ∈ touchCalls modtimeSet path, call.name = cStr path.text) ↔
      modtimeSet = true ∨ '\x00' ∈ path.text ∨ path.Terminated := by
  have hfirst : (TouchCall.setTime (cStr path.text)).name = cStr path.text := rfl
  rw [← View.cStr_fromData_eq_iff, touchCalls, List.forall_mem_cons, and_iff_right hfirst]
  cases modtimeSet with
  | true => exact iff_of_true (fun call h => absurd h List.not_mem_nil) (.inl rfl)
  | false =>
      rw [if_neg Bool.false_ne_true, List.forall_mem_singleton, or_iff_right Bool.false_ne_true]
      rfl

/-- Where there is no file yet, the call that creates one reads on behind the view. -/
theorem not_touchCalls_name_of_unterminated :
    ¬ ∀ (modtimeSet : Bool) (path : View), ∀ call ∈ touchCalls modtimeSet path,
      call.name = cStr path.text := by
  intro h
  have hcreate := h false ⟨"new-file".toList, 0, 3, by decide⟩ (.create "new-file".toList)
    (by decide)
  exact absurd hcreate (by decide)

end Names

end Ffilesystem
