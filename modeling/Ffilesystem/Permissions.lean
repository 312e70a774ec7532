import Ffilesystem.Library.Bits
import Ffilesystem.Library.Search
import Ffilesystem.Library.Session
import Ffilesystem.Library.Store
import Ffilesystem.Links

/-!
# Setting and reading permissions on POSIX systems

`set_permissions` takes a number for each of the owner's three rights: a positive
one turns the right on, a negative one off, and zero leaves it. The C backend works
out the new mode and makes one call of `chmod`. The other backend makes a call for
each number that is not zero, and each call reads the mode anew.

A path is looked up with the modes that are there: each directory on the way has to be
one that the caller may search.

The backends do the same unless all three numbers are zero. Over any run of requests
that takes the right to search from no directory, the owner's rights are what the last
requests for them left, and the rights of the group and of the others stay
(`getPermissions_run`).
-/

namespace Ffilesystem

open FileTree Lexical

/-- The `st_mode` of a file. -/
abbrev Mode := BitVec 32

/-- What a mode belongs to. -/
inductive Inode
  | dir (path : List FileName)
  | file (ino : Nat)
  deriving DecidableEq

def inodeOf : Spot FileName → Inode
  | .dir R => .dir R
  | .file _ _ ino => .file ino

def ownerRead : Mode := 0o400
def ownerWrite : Mode := 0o200
def ownerExec : Mode := 0o100
def groupRead : Mode := 0o40
def groupWrite : Mode := 0o20
def groupExec : Mode := 0o10
def othersRead : Mode := 0o4
def othersWrite : Mode := 0o2
def othersExec : Mode := 0o1

/-- The bits that `chmod` sets. The rest of a mode says what kind of file it is. -/
def chmodBits : Mode := 0o7777

/-- The bits of `S_IFMT`. -/
def typeBits : List Nat := [12, 13, 14, 15]

/-- The modes of everything in a system. No kind of file is the number zero. -/
@[ext] structure Modes where
  mode : Inode → Mode
  typed : ∀ i, ∃ k ∈ typeBits, (mode i).getLsbD k = true

/-- What the caller is to a file or directory: a privileged user needs no rights, and
the other ones have those of their class. -/
inductive Caller
  | privileged
  | owner
  | group
  | others
  deriving DecidableEq

/-- Whose modes the caller may change, which no request changes, and whether the caller
is in the group of a file: for others `chmod` clears the bit that lends the rights of the
group. -/
structure PermEnv where
  mayChmod : Inode → Bool
  inGroup : Inode → Bool
  caller : Inode → Caller

/-- The mode that `chmod` leaves. -/
def chmodMode (inGroup : Bool) (old given : Mode) : Mode :=
  Bits.blend chmodBits old (if inGroup then given else given &&& ~~~BitVec.twoPow 32 10)

section Bits

variable {inGroup : Bool} {old given : Mode}

theorem getLsbD_chmodMode (inGroup : Bool) (old given : Mode) (i : Nat) :
    (chmodMode inGroup old given).getLsbD i =
      if chmodBits.getLsbD i = true then given.getLsbD i && (inGroup || decide (i ≠ 10))
      else old.getLsbD i := by
  rw [chmodMode, Bits.getLsbD_blend]
  cases inGroup with
  | true => rw [if_pos rfl, Bool.true_or, Bool.and_true]
  | false =>
      by_cases hi : i < 32
      · rw [if_neg Bool.false_ne_true, BitVec.getLsbD_and, BitVec.getLsbD_not,
          BitVec.getLsbD_twoPow, decide_eq_true hi, Bool.false_or]
        by_cases h10 : i = 10
        · simp [h10]
        · simp [h10, Ne.symm h10]
      · have hge := Nat.le_of_not_lt hi
        rw [BitVec.getLsbD_of_ge chmodBits i hge, if_neg Bool.false_ne_true,
          if_neg Bool.false_ne_true]

end Bits

namespace Modes

/-- One more mode, as `chmod` sets it. -/
def chmod (modes : Modes) (inGroup : Bool) (i : Inode) (given : Mode) : Modes where
  mode := Function.update modes.mode i (chmodMode inGroup (modes.mode i) given)
  typed := by
    intro j
    by_cases hj : j = i
    · obtain ⟨k, hk, htyped⟩ := modes.typed i
      have hkept : ∀ k ∈ typeBits, ¬ chmodBits.getLsbD k = true := by decide
      refine ⟨k, hk, ?_⟩
      rw [hj, Function.update_self, getLsbD_chmodMode, if_neg (hkept k hk)]
      exact htyped
    · rw [Function.update_of_ne hj]
      exact modes.typed j

end Modes

/-- Whether the caller may search a directory. -/
def PermEnv.maySearch (env : PermEnv) (modes : Modes) (R : List FileName) : Bool :=
  match env.caller (.dir R) with
  | .privileged => true
  | .owner => (modes.mode (.dir R)).getLsbD 6
  | .group => (modes.mode (.dir R)).getLsbD 3
  | .others => (modes.mode (.dir R)).getLsbD 0

/-- `stat` with the modes that are there. -/
def statAs (env : PermEnv) (sys : System) (modes : Modes) (path : Str) :
    Except Errno (Spot FileName) :=
  let p := cStr path
  if (sys.tree.searched sys.maxLinks (.dir (sys.origin p)) (trail p)).all (env.maySearch modes)
  then sys.stat path
  else .error .acces

/-- `chmod`. -/
def chmodCall (env : PermEnv) (sys : System) (modes : Modes) (path : Str) (given : Mode) :
    Option Modes :=
  match statAs env sys modes path with
  | .ok spot =>
      if env.mayChmod (inodeOf spot) then
        some (modes.chmod (env.inGroup (inodeOf spot)) (inodeOf spot) given)
      else none
  | .error _ => none

/-- `fs_st_mode`, which is zero where nothing is found. -/
def fsStMode (env : PermEnv) (sys : System) (modes : Modes) (path : Str) : Mode :=
  match statAs env sys modes path with
  | .ok spot => modes.mode (inodeOf spot)
  | .error _ => 0

def existsAs (env : PermEnv) (sys : System) (modes : Modes) (path : Str) : Bool :=
  match statAs env sys modes path with
  | .ok _ => true
  | .error _ => false

/-- What a number asks of a mode. -/
def request (n : Int) (bit m : Mode) : Mode :=
  if 0 < n then m ||| bit else if n < 0 then m &&& ~~~bit else m

/-- One of the three lines of the `<filesystem>` backend. The flag is `!ec`. -/
def permissionsLine (env : PermEnv) (sys : System) (path : Str) (bit : Mode) (n : Int)
    (r : Bool × Modes) : Bool × Modes :=
  if r.1 ∧ n ≠ 0 then
    match chmodCall env sys r.2 path (request n bit (fsStMode env sys r.2 path)) with
    | some modes => (true, modes)
    | none => (false, r.2)
  else r

def setPermissions (b : Backend) (env : PermEnv) (sys : System) (modes : Modes) (path : Str)
    (readable writable executable : Int) : Bool × Modes :=
  match b with
  | .c =>
      let m := fsStMode env sys modes path
      let m := request readable ownerRead m
      let m := request writable ownerWrite m
      let m := request executable ownerExec m
      match chmodCall env sys modes path m with
      | some modes => (true, modes)
      | none => (false, modes)
  | .cxxFilesystem =>
      permissionsLine env sys path ownerExec executable
        (permissionsLine env sys path ownerWrite writable
          (permissionsLine env sys path ownerRead readable (existsAs env sys modes path, modes)))

/-- The letters of the rights, in the order of the text. -/
def permLetters : List (Mode × Char) :=
  [(ownerRead, 'r'), (ownerWrite, 'w'), (ownerExec, 'x'), (groupRead, 'r'), (groupWrite, 'w'),
    (groupExec, 'x'), (othersRead, 'r'), (othersWrite, 'w'), (othersExec, 'x')]

def permText (m : Mode) : Str :=
  permLetters.map fun right => if m &&& right.1 ≠ 0 then right.2 else '-'

def getPermissions (b : Backend) (env : PermEnv) (sys : System) (modes : Modes) (path : Str) :
    Str :=
  match b with
  | .c =>
      let m := fsStMode env sys modes path
      if m = 0 then [] else permText m
  | .cxxFilesystem =>
      match statAs env sys modes path with
      | .ok spot => permText (modes.mode (inodeOf spot) &&& chmodBits)
      | .error _ => []

section Backends

variable {env : PermEnv} {sys : System} {modes : Modes} {path : Str} {spot : Spot FileName}

theorem getLsbD_request (n : Int) {k : Nat} (hk : k < 32) (m : Mode) (i : Nat) :
    (request n (BitVec.twoPow 32 k) m).getLsbD i =
      if n ≠ 0 ∧ i = k then decide (0 < n) else m.getLsbD i := by
  rw [request]
  rcases Int.lt_trichotomy n 0 with hneg | rfl | hpos
  · have hoff := Bits.getLsbD_turn false hk m i
    rw [Bits.turn, if_neg Bool.false_ne_true] at hoff
    rw [if_neg (by omega), if_pos hneg, hoff, decide_eq_false (by omega : ¬ 0 < n)]
    exact if_congr (by simp [Int.ne_of_lt hneg]) rfl rfl
  · rw [if_neg (Int.lt_irrefl 0), if_neg (Int.lt_irrefl 0), if_neg (fun h => h.1 rfl)]
  · have hon := Bits.getLsbD_turn true hk m i
    rw [Bits.turn, if_pos rfl] at hon
    rw [if_pos hpos, hon, decide_eq_true hpos]
    exact if_congr (by simp [Int.ne_of_gt hpos]) rfl rfl

@[simp] theorem request_zero (bit m : Mode) : request 0 bit m = m := rfl

/-- A second call of `chmod` that changes one more right does what a single call
with both changes does. -/
theorem chmodMode_chmodMode (g : Bool) (old m : Mode) (n : Int) {k : Nat} (hk : k < 32) :
    chmodMode g (chmodMode g old m) (request n (BitVec.twoPow 32 k) (chmodMode g old m)) =
      chmodMode g old (request n (BitVec.twoPow 32 k) m) := by
  apply BitVec.eq_of_getLsbD_eq
  intro i _
  rw [getLsbD_chmodMode, getLsbD_chmodMode g old (request n _ m), getLsbD_request n hk,
    getLsbD_request n hk, getLsbD_chmodMode]
  by_cases hbits : chmodBits.getLsbD i = true
  · rw [if_pos hbits, if_pos hbits, if_pos hbits]
    by_cases hasked : n ≠ 0 ∧ i = k
    · rw [if_pos hasked, if_pos hasked]
    · rw [if_neg hasked, if_neg hasked, Bool.and_assoc, Bool.and_self]
  · rw [if_neg hbits, if_neg hbits, if_neg hbits]

theorem Modes.chmod_chmod (modes : Modes) (g : Bool) (i : Inode) (m : Mode) (n : Int) {k : Nat}
    (hk : k < 32) :
    (modes.chmod g i m).chmod g i
        (request n (BitVec.twoPow 32 k) ((modes.chmod g i m).mode i)) =
      modes.chmod g i (request n (BitVec.twoPow 32 k) m) := by
  have hself : (modes.chmod g i m).mode i = chmodMode g (modes.mode i) m :=
    Function.update_self ..
  apply Modes.ext
  show Function.update (Function.update modes.mode i _) i _ = Function.update modes.mode i _
  rw [Function.update_idem, hself, chmodMode_chmodMode g _ _ n hk]

/-- A call of `chmod` that asks for the mode there is changes nothing but the bit
that lends the rights of the group. -/
theorem Modes.chmod_self_iff (modes : Modes) (g : Bool) (i : Inode) :
    modes.chmod g i (modes.mode i) = modes ↔
      ¬ (g = false ∧ (modes.mode i).getLsbD 10 = true) := by
  constructor
  · rintro heq ⟨rfl, hbit⟩
    have hmode := congrArg (fun m : Modes => (m.mode i).getLsbD 10) heq
    have hself : (modes.chmod false i (modes.mode i)).mode i =
        chmodMode false (modes.mode i) (modes.mode i) := Function.update_self ..
    rw [hself, getLsbD_chmodMode, if_pos (by decide), hbit] at hmode
    cases hmode
  · intro h
    apply Modes.ext
    show Function.update modes.mode i _ = modes.mode
    rw [Function.update_eq_self_iff]
    apply BitVec.eq_of_getLsbD_eq
    intro j _
    rw [getLsbD_chmodMode]
    split
    · cases hbit : (modes.mode i).getLsbD j with
      | false => rfl
      | true =>
          rw [Bool.true_and]
          cases g with
          | true => rfl
          | false =>
              rw [Bool.false_or, decide_eq_true_iff]
              rintro rfl
              exact h ⟨rfl, hbit⟩
    · rfl

/-- The state after some of the calls, where a call was made if `called`. -/
def chmodIf (called : Bool) (modes : Modes) (g : Bool) (i : Inode) (m : Mode) : Modes :=
  if called then modes.chmod g i m else modes

/-- A lookup sees of the modes only which directories may be searched. -/
theorem statAs_congr {modes' : Modes} (h : env.maySearch modes' = env.maySearch modes) :
    statAs env sys modes' path = statAs env sys modes path := by
  rw [statAs, statAs, h]

theorem fsStMode_of_stat (h : statAs env sys modes path = .ok spot) :
    fsStMode env sys modes path = modes.mode (inodeOf spot) := by
  rw [fsStMode, h]

theorem chmodCall_of_stat (h : statAs env sys modes path = .ok spot)
    (hmay : env.mayChmod (inodeOf spot) = true) (m : Mode) :
    chmodCall env sys modes path m =
      some (modes.chmod (env.inGroup (inodeOf spot)) (inodeOf spot) m) := by
  rw [chmodCall, h]
  exact if_pos hmay

theorem chmodCall_of_denied (h : statAs env sys modes path = .ok spot)
    (hmay : env.mayChmod (inodeOf spot) = false) (m : Mode) :
    chmodCall env sys modes path m = none := by
  rw [chmodCall, h]
  exact if_neg (Bool.eq_false_iff.mp hmay)

theorem request_of_not_called (called : Bool) (n : Int) (bit m m' : Mode)
    (hm : called = false → m = m') (h : (called || decide (n ≠ 0)) = false) :
    request n bit m = m' := by
  obtain ⟨hcalled, hn⟩ := Bool.or_eq_false_iff.mp h
  rw [Decidable.not_not.mp (of_decide_eq_false hn), request_zero, hm hcalled]

/-- One line of the `<filesystem>` backend adds its change to the ones before. -/
theorem permissionsLine_of_stat (hmay : env.mayChmod (inodeOf spot) = true) (modes : Modes)
    {k : Nat} (hk : k < 32) (n : Int) (called : Bool) (m : Mode)
    (hm : called = false → m = modes.mode (inodeOf spot))
    (h : statAs env sys (chmodIf called modes (env.inGroup (inodeOf spot)) (inodeOf spot) m)
      path = .ok spot) :
    permissionsLine env sys path (BitVec.twoPow 32 k) n
        (true, chmodIf called modes (env.inGroup (inodeOf spot)) (inodeOf spot) m) =
      (true, chmodIf (called || decide (n ≠ 0)) modes (env.inGroup (inodeOf spot)) (inodeOf spot)
        (request n (BitVec.twoPow 32 k) m)) := by
  rw [permissionsLine]
  by_cases hn : n = 0
  · subst hn
    rw [if_neg (fun h => h.2 rfl), request_zero, decide_eq_false (fun h => h rfl), Bool.or_false]
  · rw [if_pos ⟨rfl, hn⟩, chmodCall_of_stat h hmay, fsStMode_of_stat h, decide_eq_true hn,
      Bool.or_true]
    cases called with
    | false =>
        rw [hm rfl]
        rfl
    | true =>
        exact congrArg (Prod.mk true) (Modes.chmod_chmod modes _ _ m n hk)

theorem permissionsLine_of_denied (h : statAs env sys modes path = .ok spot)
    (hmay : env.mayChmod (inodeOf spot) = false) (bit : Mode) (n : Int) (ok : Bool) :
    permissionsLine env sys path bit n (ok, modes) = (ok && decide (n = 0), modes) := by
  rw [permissionsLine]
  cases ok with
  | false => exact if_neg (fun h => Bool.false_ne_true h.1)
  | true =>
      by_cases hn : n = 0
      · rw [if_neg (fun h => h.2 hn), decide_eq_true hn]
        rfl
      · rw [if_pos ⟨rfl, hn⟩, chmodCall_of_denied h hmay, decide_eq_false hn]
        rfl

theorem permissionsLine_false (bit : Mode) (n : Int) :
    permissionsLine env sys path bit n (false, modes) = (false, modes) :=
  if_neg (fun h => Bool.false_ne_true h.1)

theorem ownerRead_eq : ownerRead = BitVec.twoPow 32 8 := by decide

theorem ownerWrite_eq : ownerWrite = BitVec.twoPow 32 7 := by decide

theorem ownerExec_eq : ownerExec = BitVec.twoPow 32 6 := by decide

/-- The bits that lend the right to search are among those that a call sets. -/
theorem getLsbD_chmodIf {called g : Bool} {i j : Inode} {m : Mode} {k : Nat} (hk : k ≤ 6) :
    ((chmodIf called modes g i m).mode j).getLsbD k =
      if called = true ∧ j = i then m.getLsbD k else (modes.mode j).getLsbD k := by
  have hbits : ∀ k ≤ 6, chmodBits.getLsbD k = true := by decide
  cases called with
  | false => rw [if_neg fun h => Bool.false_ne_true h.1, chmodIf, if_neg Bool.false_ne_true]
  | true =>
      rw [chmodIf, if_pos rfl]
      by_cases hj : j = i
      · have hself : (modes.chmod g i m).mode j = chmodMode g (modes.mode i) m := by
          rw [hj]
          exact Function.update_self ..
        rw [if_pos ⟨rfl, hj⟩, hself, getLsbD_chmodMode, if_pos (hbits k hk),
          decide_eq_true (by omega : k ≠ 10), Bool.or_true, Bool.and_true]
      · have hother : (modes.chmod g i m).mode j = modes.mode j := Function.update_of_ne hj _ _
        rw [if_neg fun h => hj h.2, hother]

/-- A change of bits that lend no right to search changes no lookup. -/
theorem maySearch_chmodIf {called g : Bool} {i : Inode} {m : Mode}
    (h : ∀ k ≤ 6, m.getLsbD k = (modes.mode i).getLsbD k) :
    env.maySearch (chmodIf called modes g i m) = env.maySearch modes := by
  have hmode : ∀ j, ∀ k ≤ 6,
      ((chmodIf called modes g i m).mode j).getLsbD k = (modes.mode j).getLsbD k := by
    intro j k hk
    rw [getLsbD_chmodIf hk]
    split
    · rename_i hset
      rw [h k hk, hset.2]
    · rfl
  funext R
  rw [PermEnv.maySearch, PermEnv.maySearch, hmode _ 6 (by omega), hmode _ 3 (by omega),
    hmode _ 0 (by omega)]

/-- A directory that may be searched still may be, if its mode loses none of the bits for
that. -/
theorem maySearch_chmodIf_of_le {called g : Bool} {i : Inode} {m : Mode} {R : List FileName}
    (h : env.maySearch modes R = true)
    (hkeep : Inode.dir R = i → ∀ k ≤ 6, (modes.mode i).getLsbD k = true → m.getLsbD k = true) :
    env.maySearch (chmodIf called modes g i m) R = true := by
  have hmode : ∀ k ≤ 6, (modes.mode (.dir R)).getLsbD k = true →
      ((chmodIf called modes g i m).mode (.dir R)).getLsbD k = true := by
    intro k hk hbit
    rw [getLsbD_chmodIf hk]
    split
    · rename_i hset
      exact hkeep hset.2 k hk (hset.2 ▸ hbit)
    · exact hbit
  rw [PermEnv.maySearch] at h ⊢
  cases hcaller : env.caller (.dir R) with
  | privileged => rfl
  | owner =>
      rw [hcaller] at h
      exact hmode 6 (by omega) h
  | group =>
      rw [hcaller] at h
      exact hmode 3 (by omega) h
  | others =>
      rw [hcaller] at h
      exact hmode 0 (by omega) h

/-- The mode that a request asks for. -/
def requested (m : Mode) (readable writable executable : Int) : Mode :=
  request executable ownerExec (request writable ownerWrite (request readable ownerRead m))

/-- What either backend does to what a path names, when the caller may. -/
theorem setPermissions_of_stat (b : Backend) (h : statAs env sys modes path = .ok spot)
    (hmay : env.mayChmod (inodeOf spot) = true) (readable writable executable : Int) :
    setPermissions b env sys modes path readable writable executable =
      (true, chmodIf (b = .c ∨ readable ≠ 0 ∨ writable ≠ 0 ∨ executable ≠ 0) modes
        (env.inGroup (inodeOf spot)) (inodeOf spot)
        (requested (modes.mode (inodeOf spot)) readable writable executable)) := by
  cases b with
  | c =>
      simp only [setPermissions, chmodCall_of_stat h hmay, fsStMode_of_stat h]
      rfl
  | cxxFilesystem =>
      have hexists : existsAs env sys modes path = true := by rw [existsAs, h]
      have hstart : (true, modes) = (true, chmodIf false modes (env.inGroup (inodeOf spot))
          (inodeOf spot) (modes.mode (inodeOf spot))) := rfl
      have hlookup : ∀ called r w, statAs env sys (chmodIf called modes
          (env.inGroup (inodeOf spot)) (inodeOf spot)
          (request w (BitVec.twoPow 32 7) (request r (BitVec.twoPow 32 8)
            (modes.mode (inodeOf spot))))) path = .ok spot := by
        intro called r w
        rw [statAs_congr (maySearch_chmodIf fun k hk => ?_), h]
        rw [getLsbD_request w (by decide), getLsbD_request r (by decide), if_neg, if_neg]
        · rintro ⟨-, rfl⟩
          omega
        · rintro ⟨-, rfl⟩
          omega
      have hread := permissionsLine_of_stat hmay modes (by decide : 8 < 32) readable false _
        (fun _ => rfl) (hlookup false 0 0)
      have hwrite := permissionsLine_of_stat hmay modes (by decide : 7 < 32) writable _ _
        (request_of_not_called false readable (BitVec.twoPow 32 8) _ _ fun _ => rfl)
        (hlookup _ readable 0)
      have hexec := permissionsLine_of_stat hmay modes (by decide : 6 < 32) executable _ _
        (request_of_not_called _ writable (BitVec.twoPow 32 7) _ _
          (request_of_not_called false readable (BitVec.twoPow 32 8) _ _ fun _ => rfl))
        (hlookup _ readable writable)
      rw [setPermissions, hexists, hstart, ownerRead_eq, ownerWrite_eq, ownerExec_eq, hread, hwrite,
        hexec]
      congr 2
      simp [Bool.or_assoc]

theorem setPermissions_of_denied (modes : Modes) (h : statAs env sys modes path = .ok spot)
    (hmay : env.mayChmod (inodeOf spot) = false) (readable writable executable : Int) :
    setPermissions .c env sys modes path readable writable executable = (false, modes) ∧
      setPermissions .cxxFilesystem env sys modes path readable writable executable =
        (decide (readable = 0 ∧ writable = 0 ∧ executable = 0), modes) := by
  have hexists : existsAs env sys modes path = true := by rw [existsAs, h]
  constructor
  · simp only [setPermissions, chmodCall_of_denied h hmay]
  · rw [setPermissions, permissionsLine_of_denied h hmay, permissionsLine_of_denied h hmay,
      permissionsLine_of_denied h hmay, hexists]
    simp [Bool.and_assoc]

theorem snd_setPermissions_of_denied (b : Backend) (modes : Modes)
    (h : statAs env sys modes path = .ok spot) (hmay : env.mayChmod (inodeOf spot) = false)
    (readable writable executable : Int) :
    (setPermissions b env sys modes path readable writable executable).2 = modes := by
  obtain ⟨hc, hcxx⟩ := setPermissions_of_denied modes h hmay readable writable executable
  cases b with
  | c => rw [hc]
  | cxxFilesystem => rw [hcxx]

theorem setPermissions_of_error (b : Backend) {e : Errno}
    (h : statAs env sys modes path = .error e)
    (readable writable executable : Int) :
    setPermissions b env sys modes path readable writable executable = (false, modes) := by
  cases b with
  | c => simp only [setPermissions, chmodCall, h]
  | cxxFilesystem =>
      have hexists : existsAs env sys modes path = false := by rw [existsAs, h]
      rw [setPermissions, hexists, permissionsLine_false, permissionsLine_false,
        permissionsLine_false]

/-- The backends agree unless no right is asked for. There the C backend calls
`chmod` all the same, which the system may refuse, or which may clear the bit that
lends the rights of the group. -/
theorem setPermissions_backends_iff (env : PermEnv) (sys : System) (modes : Modes) (path : Str)
    (readable writable executable : Int) :
    setPermissions .c env sys modes path readable writable executable =
        setPermissions .cxxFilesystem env sys modes path readable writable executable ↔
      ¬ (readable = 0 ∧ writable = 0 ∧ executable = 0 ∧
        ∃ spot, statAs env sys modes path = .ok spot ∧ (env.mayChmod (inodeOf spot) = false ∨
          (env.inGroup (inodeOf spot) = false ∧
            (modes.mode (inodeOf spot)).getLsbD 10 = true))) := by
  cases h : statAs env sys modes path with
  | error e =>
      rw [setPermissions_of_error .c h, setPermissions_of_error .cxxFilesystem h]
      refine iff_of_true rfl ?_
      rintro ⟨-, -, -, spot, hspot, -⟩
      cases hspot
  | ok spot =>
      cases hmay : env.mayChmod (inodeOf spot) with
      | false =>
          obtain ⟨hc, hcxx⟩ := setPermissions_of_denied modes h hmay readable writable
            executable
          rw [hc, hcxx, Prod.mk.injEq, and_iff_left rfl, eq_comm, decide_eq_false_iff_not]
          refine not_congr ⟨fun hzero => ?_, fun hzero => ⟨hzero.1, hzero.2.1, hzero.2.2.1⟩⟩
          exact ⟨hzero.1, hzero.2.1, hzero.2.2, spot, rfl, .inl hmay⟩
      | true =>
          rw [setPermissions_of_stat .c h hmay, setPermissions_of_stat .cxxFilesystem h hmay]
          by_cases hzero : readable = 0 ∧ writable = 0 ∧ executable = 0
          · obtain ⟨rfl, rfl, rfl⟩ := hzero
            have hself := modes.chmod_self_iff (env.inGroup (inodeOf spot)) (inodeOf spot)
            rw [Prod.mk.injEq, and_iff_right rfl]
            refine hself.trans (not_congr ⟨fun hbit => ⟨rfl, rfl, rfl, spot, rfl, .inr hbit⟩, ?_⟩)
            rintro ⟨-, -, -, spot', hspot, hcase⟩
            cases hspot
            refine hcase.resolve_left fun hdenied => ?_
            rw [hmay] at hdenied
            cases hdenied
          · have hasked : readable ≠ 0 ∨ writable ≠ 0 ∨ executable ≠ 0 := by
              by_contra hnone
              simp only [not_or, not_not] at hnone
              exact hzero hnone
            rw [decide_eq_true (.inr hasked), decide_eq_true (.inr hasked)]
            refine iff_of_true rfl fun hall => ?_
            exact hzero ⟨hall.1, hall.2.1, hall.2.2.1⟩

end Backends

section Runs

variable {env : PermEnv} {sys : System} {modes : Modes}

/-- A request to `set_permissions`. -/
structure PermRequest where
  path : Str
  readable : Int
  writable : Int
  executable : Int
  deriving Repr

/-- A run of requests. -/
def setAllPermissions (b : Backend) (env : PermEnv) (sys : System) (modes : Modes)
    (requests : List PermRequest) : Modes :=
  Session.after
    (fun modes (r : PermRequest) =>
      (setPermissions b env sys modes r.path r.readable r.writable r.executable).2)
    modes requests

/-- The caller may search every directory. -/
def Searchable (env : PermEnv) (sys : System) (modes : Modes) : Prop :=
  ∀ R, sys.tree.IsDir R → env.maySearch modes R = true

/-- The request takes the right to search from no directory. -/
def PermRequest.KeepsSearch (sys : System) (r : PermRequest) : Prop :=
  r.executable < 0 → ∀ R, sys.stat r.path ≠ .ok (.dir R)

/-- Where every directory may be searched the modes do not hide anything. -/
theorem statAs_eq_stat (h : Searchable env sys modes) (path : Str) :
    statAs env sys modes path = sys.stat path := by
  apply if_pos
  rw [List.all_eq_true]
  intro R hR
  exact h R (Tree.isDir_of_mem_searched (sys.origin_stands (cStr path)) hR)

/-- What a number leaves of a right, if it asks for anything. -/
def askedChar (n : Int) (letter : Char) : Option Char :=
  if 0 < n then some letter else if n < 0 then some '-' else none

/-- The characters that a request changes, by what they belong to and their place
in the text. -/
def PermRequest.changes (env : PermEnv) (sys : System) (r : PermRequest) :
    List ((Inode × Nat) × Char) :=
  match sys.stat r.path with
  | .ok spot =>
      if env.mayChmod (inodeOf spot) then
        [(r.readable, 0, 'r'), (r.writable, 1, 'w'), (r.executable, 2, 'x')].filterMap
          fun asked => (askedChar asked.1 asked.2.2).map fun c => ((inodeOf spot, asked.2.1), c)
      else []
  | .error _ => []

/-- One character of the text for a mode. -/
def permChar (modes : Modes) (right : Inode × Nat) : Char :=
  (permText (modes.mode right.1)).getD right.2 '-'

/-- The letters in the order of the text. -/
def permLetter (k : Nat) : Char := "rwxrwxrwx".toList.getD k '-'

/-- A character of the text shows one bit. -/
def rightChar (m : Mode) (k : Nat) : Char :=
  if k < 9 ∧ m.getLsbD (8 - k) = true then permLetter k else '-'

theorem permText_eq_map (m : Mode) : permText m = (List.range 9).map (rightChar m) := by
  have hletters : permLetters = (List.range 9).map fun k =>
      (BitVec.twoPow 32 (8 - k), permLetter k) := by decide
  rw [permText, hletters, List.map_map]
  refine List.map_congr_left fun k hk => ?_
  have hk9 : k < 9 := List.mem_range.mp hk
  show (if m &&& BitVec.twoPow 32 (8 - k) ≠ 0 then permLetter k else '-') = _
  rw [rightChar]
  refine if_congr ?_ rfl rfl
  rw [Bits.and_twoPow_ne_zero_iff (by omega), and_iff_right hk9]

theorem permChar_eq (modes : Modes) (i : Inode) (k : Nat) :
    permChar modes (i, k) = rightChar (modes.mode i) k := by
  rw [permChar, permText_eq_map, List.getD_eq_getElem?_getD, List.getElem?_map]
  by_cases hk : k < 9
  · rw [List.getElem?_range hk]
    rfl
  · rw [List.getElem?_eq_none (by rw [List.length_range]; omega), rightChar, if_neg fun h => hk h.1]
    rfl

/-- A request for one right changes its character. -/
theorem rightChar_request (n : Int) (m : Mode) {j : Nat} (hj : j < 9) :
    rightChar (request n (BitVec.twoPow 32 (8 - j)) m) =
      (askedChar n (permLetter j)).elim (rightChar m) (Function.update (rightChar m) j) := by
  have hbit := getLsbD_request n (by omega : 8 - j < 32) m
  funext k
  by_cases hkj : k = j
  · subst hkj
    have hself := hbit (8 - k)
    rcases Int.lt_trichotomy n 0 with hneg | rfl | hpos
    · rw [if_pos ⟨Int.ne_of_lt hneg, rfl⟩, decide_eq_false (by omega)] at hself
      rw [askedChar, if_neg (by omega : ¬ 0 < n), if_pos hneg, Option.elim_some,
        Function.update_self, rightChar, hself]
      exact if_neg fun h => Bool.false_ne_true h.2
    · rfl
    · rw [if_pos ⟨Int.ne_of_gt hpos, rfl⟩, decide_eq_true hpos] at hself
      rw [askedChar, if_pos hpos, Option.elim_some, Function.update_self, rightChar, hself]
      exact if_pos ⟨hj, rfl⟩
  · have hother : (askedChar n (permLetter j)).elim (rightChar m)
        (Function.update (rightChar m) j) k = rightChar m k := by
      cases askedChar n (permLetter j) with
      | none => rfl
      | some c => exact Function.update_of_ne hkj _ _
    rw [hother, rightChar, rightChar]
    refine if_congr (and_congr_right fun hk => ?_) rfl rfl
    rw [hbit (8 - k), if_neg fun h => hkj (by omega)]

theorem rightChar_chmodMode (g : Bool) (old given : Mode) :
    rightChar (chmodMode g old given) = rightChar given := by
  have hbits : ∀ k < 9, chmodBits.getLsbD k = true := by decide
  funext k
  rw [rightChar, rightChar, getLsbD_chmodMode, if_pos (hbits _ (by omega)),
    decide_eq_true (by omega : 8 - k ≠ 10), Bool.or_true, Bool.and_true]

/-- The characters where the mode of `i` is `m`. -/
def charsWith (modes : Modes) (i : Inode) (m : Mode) (right : Inode × Nat) : Char :=
  if right.1 = i then rightChar m right.2 else permChar modes right

theorem charsWith_self (modes : Modes) (i : Inode) :
    charsWith modes i (modes.mode i) = permChar modes := by
  funext right
  rw [charsWith]
  split
  · rename_i h
    rw [← h, ← permChar_eq]
  · rfl

theorem charsWith_request (modes : Modes) (i : Inode) (n : Int) (m : Mode) {j : Nat} (hj : j < 9) :
    charsWith modes i (request n (BitVec.twoPow 32 (8 - j)) m) =
      (((askedChar n (permLetter j)).map fun c => ((i, j), c)).toList).foldl
        (fun s change => Function.update s change.1 change.2) (charsWith modes i m) := by
  funext right
  rw [charsWith, rightChar_request n m hj]
  cases askedChar n (permLetter j) with
  | none => rfl
  | some c =>
      show _ = Function.update (charsWith modes i m) (i, j) c right
      by_cases hright : right = (i, j)
      · rw [hright, Function.update_self, if_pos rfl]
        exact Function.update_self ..
      · rw [Function.update_of_ne hright, charsWith]
        by_cases hi : right.1 = i
        · rw [if_pos hi, if_pos hi]
          exact Function.update_of_ne (fun hj => hright (Prod.ext hi hj)) _ _
        · rw [if_neg hi, if_neg hi]

theorem permChar_chmodIf {called : Bool} {g : Bool} {i : Inode} {m : Mode}
    (hm : called = false → m = modes.mode i) :
    permChar (chmodIf called modes g i m) = charsWith modes i m := by
  cases called with
  | false =>
      rw [hm rfl, charsWith_self]
      rfl
  | true =>
      funext right
      rw [charsWith]
      show permChar (modes.chmod g i m) (right.1, right.2) = _
      rw [permChar_eq]
      split
      · rename_i h
        have hself : (modes.chmod g i m).mode right.1 = chmodMode g (modes.mode i) m := by
          rw [h]
          exact Function.update_self ..
        rw [hself, rightChar_chmodMode]
      · rename_i h
        have hother : (modes.chmod g i m).mode right.1 = modes.mode right.1 :=
          Function.update_of_ne h _ _
        rw [hother, ← permChar_eq]

theorem requested_of_not_called {b : Backend} {readable writable executable : Int} {m : Mode}
    (h : decide (b = .c ∨ readable ≠ 0 ∨ writable ≠ 0 ∨ executable ≠ 0) = false) :
    requested m readable writable executable = m := by
  have hnone := of_decide_eq_false h
  simp only [not_or, not_not] at hnone
  obtain ⟨-, rfl, rfl, rfl⟩ := hnone
  rfl

/-- The right to search that a directory lends to a class is not lost by a mode that
asks for it, or leaves it as it was. -/
theorem getLsbD_requested_of_le {m : Mode} {readable writable executable : Int}
    (h : 0 ≤ executable) {k : Nat} (hk : k ≤ 6) (hbit : m.getLsbD k = true) :
    (requested m readable writable executable).getLsbD k = true := by
  rw [requested, ownerRead_eq, ownerWrite_eq, ownerExec_eq, getLsbD_request _ (by decide),
    getLsbD_request _ (by decide), getLsbD_request _ (by decide)]
  split
  · rename_i hasked
    exact decide_eq_true (by omega)
  · rw [if_neg (by omega), if_neg (by omega), hbit]

/-- A request that takes the right to search from no directory leaves every directory
one that may be searched. -/
theorem searchable_setPermissions (b : Backend) (h : Searchable env sys modes) {r : PermRequest}
    (hkeep : r.KeepsSearch sys) :
    Searchable env sys
      (setPermissions b env sys modes r.path r.readable r.writable r.executable).2 := by
  have hlookup := statAs_eq_stat h r.path
  cases hstat : sys.stat r.path with
  | error e =>
      rw [setPermissions_of_error b (hlookup.trans hstat)]
      exact h
  | ok spot =>
      cases hmay : env.mayChmod (inodeOf spot) with
      | false =>
          rw [snd_setPermissions_of_denied b modes (hlookup.trans hstat) hmay]
          exact h
      | true =>
          rw [setPermissions_of_stat b (hlookup.trans hstat) hmay]
          refine fun R hR => maySearch_chmodIf_of_le (h R hR) fun hself k hk hbit => ?_
          -- the mode of a directory is changed only by a request that asks to keep it open
          have hspot : spot = .dir R := by
            cases spot with
            | dir D => rw [Inode.dir.inj hself]
            | file D name ino => cases hself
          refine getLsbD_requested_of_le (Int.not_lt.mp fun hneg => ?_) hk hbit
          exact hkeep hneg R (hspot ▸ hstat)

/-- One request makes its changes to the characters. -/
theorem permChar_setPermissions (b : Backend) (h : Searchable env sys modes) (r : PermRequest) :
    permChar (setPermissions b env sys modes r.path r.readable r.writable r.executable).2 =
      (r.changes env sys).foldl (fun s change => Function.update s change.1 change.2)
        (permChar modes) := by
  have hlookup := statAs_eq_stat h r.path
  rw [PermRequest.changes]
  cases hstat : sys.stat r.path with
  | error e =>
      rw [setPermissions_of_error b (hlookup.trans hstat)]
      rfl
  | ok spot =>
      cases hmay : env.mayChmod (inodeOf spot) with
      | false =>
          rw [snd_setPermissions_of_denied b modes (hlookup.trans hstat) hmay]
          simp only [hmay, if_neg Bool.false_ne_true, List.foldl_nil]
      | true =>
          rw [setPermissions_of_stat b (hlookup.trans hstat) hmay,
            permChar_chmodIf requested_of_not_called, requested, ownerRead_eq, ownerWrite_eq,
            ownerExec_eq,
            charsWith_request modes _ r.executable _ (by decide : 2 < 9),
            charsWith_request modes _ r.writable _ (by decide : 1 < 9),
            charsWith_request modes _ r.readable _ (by decide : 0 < 9), charsWith_self,
            ← List.foldl_append, ← List.foldl_append]
          dsimp only
          rw [if_pos hmay]
          congr 1
          have hr : permLetter 0 = 'r' := rfl
          have hw : permLetter 1 = 'w' := rfl
          have hx : permLetter 2 = 'x' := rfl
          rw [hr, hw, hx, List.filterMap_cons, List.filterMap_cons, List.filterMap_cons,
            List.filterMap_nil]
          cases askedChar r.readable 'r' <;> cases askedChar r.writable 'w' <;>
            cases askedChar r.executable 'x' <;> rfl

/-- Every request of a run finds what its path names and makes its changes. -/
theorem permChar_setAllPermissions (b : Backend) (h : Searchable env sys modes)
    {requests : List PermRequest} (hkeep : ∀ r ∈ requests, r.KeepsSearch sys) :
    Searchable env sys (setAllPermissions b env sys modes requests) ∧
      permChar (setAllPermissions b env sys modes requests) =
        (requests.flatMap (PermRequest.changes env sys)).foldl
          (fun s change => Function.update s change.1 change.2) (permChar modes) := by
  induction requests generalizing modes with
  | nil => exact ⟨h, rfl⟩
  | cons r rest ih =>
      rw [List.flatMap_cons, List.foldl_append, ← permChar_setPermissions b h]
      exact ih (searchable_setPermissions b h (hkeep r List.mem_cons_self))
        fun r' hr' => hkeep r' (List.mem_cons_of_mem _ hr')

theorem getPermissions_eq (b : Backend) {path : Str} {spot : Spot FileName}
    (h : statAs env sys modes path = .ok spot) :
    getPermissions b env sys modes path = permText (modes.mode (inodeOf spot)) := by
  cases b with
  | c =>
      have hne : modes.mode (inodeOf spot) ≠ 0 := by
        intro hzero
        obtain ⟨k, -, htyped⟩ := modes.typed (inodeOf spot)
        have hclear : (0 : Mode).getLsbD k = false := BitVec.getLsbD_zero
        rw [hzero, hclear] at htyped
        cases htyped
      simp only [getPermissions, fsStMode_of_stat h, if_neg hne]
  | cxxFilesystem =>
      have hbits : ∀ k < 9, chmodBits.getLsbD k = true := by decide
      simp only [getPermissions, h]
      rw [permText_eq_map, permText_eq_map]
      refine List.map_congr_left fun k hk => ?_
      have hk9 : k < 9 := List.mem_range.mp hk
      rw [rightChar, rightChar, BitVec.getLsbD_and, hbits _ (by omega), Bool.and_true]

/-- After any run of requests that takes the right to search from no directory, each
character of the text for a path is what the last request for that right left, by
whatever path it came to the same file, or what it was before. -/
theorem getPermissions_run (b b' : Backend) (hsearch : Searchable env sys modes)
    {requests : List PermRequest} (hkeep : ∀ r ∈ requests, r.KeepsSearch sys) {path : Str}
    {spot : Spot FileName} (h : sys.stat path = .ok spot) :
    getPermissions b' env sys (setAllPermissions b env sys modes requests) path =
      (List.range 9).map fun k =>
        (Store.view (requests.flatMap (PermRequest.changes env sys)).reverse
          (inodeOf spot, k)).getD ((permText (modes.mode (inodeOf spot))).getD k '-') := by
  obtain ⟨hafter, hchars⟩ := permChar_setAllPermissions b hsearch hkeep
  rw [getPermissions_eq b' ((statAs_eq_stat hafter path).trans h), permText_eq_map]
  refine List.map_congr_left fun k _ => ?_
  rw [← permChar_eq, hchars, Store.foldl_update_apply]
  rfl

/-- The modes of files and directories that were just made. -/
def newModes : Modes where
  mode := fun i =>
    match i with
    | .dir _ => 0o40755
    | .file _ => 0o100644
  typed := fun i => by
    cases i with
    | dir R => exact (by decide : ∃ k ∈ typeBits, (0o40755 : Mode).getLsbD k = true)
    | file ino => exact (by decide : ∃ k ∈ typeBits, (0o100644 : Mode).getLsbD k = true)

/-- A request that names the file through the link, and one that names it itself. -/
theorem getPermissions_run_linkedDir :
    getPermissions .c ⟨fun _ => true, fun _ => true, fun _ => .owner⟩ linkedDir
        (setAllPermissions .cxxFilesystem ⟨fun _ => true, fun _ => true, fun _ => .owner⟩
          linkedDir newModes [⟨"l/f".toList, 1, -1, 0⟩, ⟨"d/f".toList, 0, 1, -1⟩])
        "d/f".toList =
      (List.range 9).map fun k =>
        (Store.view ([⟨"l/f".toList, 1, -1, 0⟩, ⟨"d/f".toList, 0, 1, -1⟩].flatMap
          (PermRequest.changes ⟨fun _ => true, fun _ => true, fun _ => .owner⟩
            linkedDir)).reverse (inodeOf linkedDirFile, k)).getD
              ((permText (newModes.mode (inodeOf linkedDirFile))).getD k '-') := by
  have hfile : linkedDir.stat "d/f".toList = .ok linkedDirFile := by decide +kernel
  have hsearch : Searchable ⟨fun _ => true, fun _ => true, fun _ => .owner⟩ linkedDir newModes :=
    fun R _ => (by decide : (0o40755 : Mode).getLsbD 6 = true)
  refine getPermissions_run .cxxFilesystem .c hsearch (fun r hr hneg R hdir => ?_) hfile
  simp only [List.mem_cons, List.not_mem_nil, or_false] at hr
  rcases hr with rfl | rfl
  · exact absurd hneg (by decide)
  · rw [hfile] at hdir
    cases hdir

end Runs

end Ffilesystem
