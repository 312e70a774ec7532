import Mathlib.Data.List.Basic
import Mathlib.Data.List.Induction

/-!
# Places reached by a lexical walk

A relative or rooted path is read as a sequence of moves: stay, go up, or go
down to a name. Without a file tree the only thing such a walk determines is a
`Place`: how far it climbed above its start, and which names it then went down.
At a root there is nothing above, so the climb of a rooted place is zero; the
structure carries that fact, and no other value can be built.

Every place has one canonical sequence of moves, and walking it from the start
gives the place back (`walk_moves`). Cancelling a name against the `up` that
follows it keeps the place, and a sequence in which nothing can be cancelled
any more climbs first and descends afterwards (`exists_of_irreducible`). So all
ways of cancelling to the end agree on the place.
-/

namespace Lexical

variable {ν : Type*}

/-- What one component of a path does to a walk. -/
inductive Move (ν : Type*)
  | stay
  | up
  | down (name : ν)
  deriving DecidableEq, Repr

/-- Where a walk ends, seen from its start. -/
@[ext] structure Place (ν : Type*) where
  rooted : Bool
  ups : Nat
  names : List ν
  ups_of_rooted : rooted = true → ups = 0
  deriving DecidableEq

namespace Place

/-- The place of the empty walk. -/
def start (rooted : Bool) : Place ν := ⟨rooted, 0, [], fun _ => rfl⟩

/-- Above a root is the root itself; elsewhere the climb is counted. -/
def climb (m : Place ν) : Place ν :=
  if h : m.rooted = true then m
  else { m with ups := m.ups + 1, ups_of_rooted := fun hr => (h hr).elim }

/-- A move up first takes back the last name and climbs only when none is left. -/
def step (m : Place ν) : Move ν → Place ν
  | .stay => m
  | .down n => { m with names := m.names ++ [n] }
  | .up => if m.names.isEmpty then m.climb else { m with names := m.names.dropLast }

def walk (m : Place ν) (moves : List (Move ν)) : Place ν := moves.foldl step m

/-- The shortest walk to a place: all the climbing, then all the names. -/
def moves (m : Place ν) : List (Move ν) :=
  List.replicate m.ups .up ++ m.names.map .down

@[simp] theorem start_rooted (rooted : Bool) : (start rooted : Place ν).rooted = rooted := rfl
@[simp] theorem start_ups (rooted : Bool) : (start rooted : Place ν).ups = 0 := rfl
@[simp] theorem start_names (rooted : Bool) : (start rooted : Place ν).names = [] := rfl

@[simp] theorem climb_rooted (m : Place ν) : m.climb.rooted = m.rooted := by
  unfold climb
  split <;> rfl

@[simp] theorem climb_names (m : Place ν) : m.climb.names = m.names := by
  unfold climb
  split <;> rfl

theorem climb_of_rooted {m : Place ν} (h : m.rooted = true) : m.climb = m := by
  simp [climb, h]

theorem climb_ups_of_not_rooted {m : Place ν} (h : m.rooted = false) :
    m.climb.ups = m.ups + 1 := by
  simp [climb, h]

@[simp] theorem start_moves (rooted : Bool) : (start rooted : Place ν).moves = [] := rfl

@[simp] theorem step_stay (m : Place ν) : m.step .stay = m := rfl

@[simp] theorem step_down_names (m : Place ν) (n : ν) :
    (m.step (.down n)).names = m.names ++ [n] := rfl

@[simp] theorem step_down_ups (m : Place ν) (n : ν) : (m.step (.down n)).ups = m.ups := rfl

theorem step_up_of_names_nil {m : Place ν} (h : m.names = []) : m.step .up = m.climb := by
  simp [step, h]

theorem step_up_of_names_ne_nil {m : Place ν} (h : m.names ≠ []) :
    m.step .up = { m with names := m.names.dropLast } := by
  simp [step, h]

@[simp] theorem step_rooted (m : Place ν) (move : Move ν) :
    (m.step move).rooted = m.rooted := by
  cases move with
  | stay => rfl
  | down => rfl
  | up =>
      simp only [step]
      split
      · exact climb_rooted m
      · rfl

@[simp] theorem walk_nil (m : Place ν) : m.walk [] = m := rfl

@[simp] theorem walk_cons (m : Place ν) (move : Move ν) (rest : List (Move ν)) :
    m.walk (move :: rest) = (m.step move).walk rest := rfl

@[simp] theorem walk_append (m : Place ν) (a b : List (Move ν)) :
    m.walk (a ++ b) = (m.walk a).walk b := List.foldl_append

@[simp] theorem walk_rooted (m : Place ν) (moves : List (Move ν)) :
    (m.walk moves).rooted = m.rooted := by
  induction moves generalizing m with
  | nil => rfl
  | cons move rest ih => rw [walk_cons, ih, step_rooted]

/-- Going down to a name and up again stays where it was. -/
@[simp] theorem step_up_step_down (m : Place ν) (n : ν) : (m.step (.down n)).step .up = m := by
  rw [step_up_of_names_ne_nil (by simp)]
  ext <;> simp [step]

/-- Only going up forgets where it started. -/
theorem step_inj {m m' : Place ν} {move : Move ν} (hmove : move ≠ .up) :
    m.step move = m'.step move ↔ m = m' := by
  refine ⟨fun h => ?_, fun h => congrArg (·.step move) h⟩
  cases move with
  | stay => exact h
  | up => exact absurd rfl hmove
  | down n => rw [← step_up_step_down m n, h, step_up_step_down]

theorem walk_map_down (m : Place ν) (names : List ν) :
    m.walk (names.map .down) = { m with names := m.names ++ names } := by
  induction names generalizing m with
  | nil => simp
  | cons n names ih => simp [ih, step, List.append_assoc]

theorem walk_replicate_up_of_not_rooted {m : Place ν} (hroot : m.rooted = false)
    (hnames : m.names = []) (k : Nat) : (m.walk (List.replicate k .up)).ups = m.ups + k ∧
      (m.walk (List.replicate k .up)).names = [] := by
  induction k generalizing m with
  | zero => simp [hnames]
  | succ k ih =>
      rw [List.replicate_succ, walk_cons, step_up_of_names_nil hnames]
      obtain ⟨hups, hnil⟩ := ih (m := m.climb) (by simpa) (by simpa)
      rw [climb_ups_of_not_rooted hroot] at hups
      exact ⟨by omega, hnil⟩

theorem walk_replicate_up_of_rooted {m : Place ν} (hroot : m.rooted = true)
    (hnames : m.names = []) (k : Nat) : m.walk (List.replicate k .up) = m := by
  induction k with
  | zero => rfl
  | succ k ih =>
      rw [List.replicate_succ, walk_cons, step_up_of_names_nil hnames, climb_of_rooted hroot, ih]

/-- The canonical walk reaches its place. -/
theorem walk_moves (m : Place ν) : (start m.rooted).walk m.moves = m := by
  rw [moves, walk_append, walk_map_down]
  cases hroot : m.rooted with
  | true =>
      have hups := m.ups_of_rooted hroot
      ext <;> simp [hups, hroot]
  | false =>
      obtain ⟨hups, hnames⟩ :=
        walk_replicate_up_of_not_rooted (start_rooted (ν := ν) false) rfl m.ups
      ext <;> simp [hups, hnames, hroot]

theorem moves_injective {m m' : Place ν} (hroot : m.rooted = m'.rooted)
    (hmoves : m.moves = m'.moves) : m = m' := by
  rw [← walk_moves m, ← walk_moves m', hroot, hmoves]

theorem stay_not_mem_moves (m : Place ν) : Move.stay ∉ m.moves := by
  simp [moves, List.mem_replicate]

/-- After the climb a place has names only, so nothing above it is mentioned. -/
theorem up_not_mem_moves_of_rooted {m : Place ν} (h : m.rooted = true) : Move.up ∉ m.moves := by
  simp [moves, m.ups_of_rooted h]

/-- A walk of names and climbs in that canonical order is its place's own. -/
theorem moves_walk_start {rooted : Bool} {k : Nat} {names : List ν}
    (h : rooted = true → k = 0) :
    ((start rooted).walk (List.replicate k .up ++ names.map .down)).moves =
      List.replicate k .up ++ names.map .down := by
  have hplace := walk_moves (⟨rooted, k, names, h⟩ : Place ν)
  exact congrArg moves hplace

/-- A walk names nothing that it was not told to go down to. -/
theorem mem_names_walk {m : Place ν} {l : List (Move ν)} {n : ν} (h : n ∈ (m.walk l).names) :
    n ∈ m.names ∨ .down n ∈ l := by
  induction l generalizing m with
  | nil => exact .inl h
  | cons move rest ih =>
      rcases ih h with hstep | hrest
      · cases move with
        | stay => exact .inl hstep
        | down n' =>
            rw [step_down_names, List.mem_append, List.mem_singleton] at hstep
            rcases hstep with hmem | rfl
            · exact .inl hmem
            · exact .inr List.mem_cons_self
        | up =>
            by_cases hnames : m.names = []
            · rw [step_up_of_names_nil hnames, climb_names] at hstep
              exact .inl hstep
            · rw [step_up_of_names_ne_nil hnames] at hstep
              exact .inl (List.dropLast_subset _ hstep)
      · exact .inr (List.mem_cons_of_mem _ hrest)

/-- What walks the same names is walked alike wherever it starts: only the climb
depends on the root. -/
theorem names_walk_congr {m m' : Place ν} (h : m.names = m'.names) (l : List (Move ν)) :
    (m.walk l).names = (m'.walk l).names := by
  induction l generalizing m m' with
  | nil => exact h
  | cons move rest ih =>
      apply ih
      cases move with
      | stay => exact h
      | down n => rw [step_down_names, step_down_names, h]
      | up =>
          by_cases hnames : m.names = []
          · rw [step_up_of_names_nil hnames, step_up_of_names_nil (h ▸ hnames), climb_names,
              climb_names, h]
          · rw [step_up_of_names_ne_nil hnames, step_up_of_names_ne_nil (h ▸ hnames), h]

/-- One more move on a canonical walk of a place that is no root. -/
theorem walk_moves_step (m : Place ν) {p : Place ν} (hp : p.rooted = false) (move : Move ν) :
    m.walk (p.step move).moves = (m.walk p.moves).step move := by
  cases move with
  | stay => rfl
  | down n =>
      have hmoves : (p.step (.down n)).moves = p.moves ++ [.down n] := by
        simp [moves]
      rw [hmoves, walk_append]
      rfl
  | up =>
      cases hnames : p.names using List.reverseRecOn with
      | nil =>
          have hmoves : (p.step .up).moves = p.moves ++ [.up] := by
            rw [step_up_of_names_nil hnames, moves, moves, climb_ups_of_not_rooted hp, climb_names,
              hnames, List.replicate_succ']
            simp
          rw [hmoves, walk_append]
          rfl
      | append_singleton names n =>
          have hne : p.names ≠ [] := by
            rw [hnames]
            exact List.concat_ne_nil _ _
          have hmoves : p.moves = (p.step .up).moves ++ [.down n] := by
            rw [step_up_of_names_ne_nil hne]
            simp [moves, hnames]
          rw [hmoves, walk_append, walk_cons, walk_nil, step_up_step_down]

/-- A walk can be shortened to its canonical form first, wherever it starts. -/
theorem walk_moves_walk (m : Place ν) (l : List (Move ν)) :
    m.walk ((start false).walk l).moves = m.walk l := by
  induction l using List.reverseRecOn with
  | nil => rfl
  | append_singleton l move ih =>
      rw [walk_append, walk_append, walk_cons, walk_nil, walk_moves_step m (by simp), ih]
      rfl

end Place

/-- One cancellation of a name against the `up` that follows it. -/
inductive Cancel : List (Move ν) → List (Move ν) → Prop
  | pair (a b : List (Move ν)) (n : ν) : Cancel (a ++ .down n :: .up :: b) (a ++ b)

theorem Cancel.walk_eq {l l' : List (Move ν)} (h : Cancel l l') (m : Place ν) :
    m.walk l' = m.walk l := by
  cases h with
  | pair a b n => simp

/-- Where nothing can be cancelled, no `up` follows a name: the walk climbs
first and descends afterwards. -/
theorem exists_of_irreducible {l : List (Move ν)} (hstay : Move.stay ∉ l)
    (hirr : ∀ l', ¬ Cancel l l') :
    ∃ (k : Nat) (names : List ν), l = List.replicate k .up ++ names.map .down := by
  induction l with
  | nil => exact ⟨0, [], rfl⟩
  | cons move rest ih =>
      have hrest : ∀ l', ¬ Cancel rest l' := by
        rintro _ ⟨a, b, n⟩
        exact hirr _ (.pair (move :: a) b n)
      obtain ⟨k, names, rfl⟩ := ih (fun h => hstay (List.mem_cons_of_mem _ h)) hrest
      cases move with
      | stay => exact absurd List.mem_cons_self hstay
      | up => exact ⟨k + 1, names, by simp [List.replicate_succ]⟩
      | down n =>
          cases k with
          | zero => exact ⟨0, n :: names, by simp⟩
          | succ k =>
              exact absurd (Cancel.pair [] _ n) (by
                simpa [List.replicate_succ] using hirr (List.replicate k .up ++ names.map .down))

end Lexical
