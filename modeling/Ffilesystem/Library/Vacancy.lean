import Ffilesystem.Library.FileTree

/-!
# Which part of a walk is not there yet

A sequence of moves from the root can be read as the name of a directory that
is to be made. Either something is there already, whatever it is (`Occupied`);
or a first part of the walk leads to a directory that does not have the next
name (`Lacks`); or the walk is blocked before that. The first two exclude each
other, and what is lacking is unique.
-/

namespace FileTree.Tree

open Lexical (Move)

variable {ν : Type*} [DecidableEq ν] {T : Tree ν} {budget : Nat}

/-- Something stands where the moves lead, be it a directory or not. The last
move is not followed. -/
def Occupied (T : Tree ν) (budget : Nat) (moves : List (Move ν)) : Prop :=
  ∃ left R, T.walk budget (.dir []) moves.dropLast = .ok (left, .dir R) ∧
    ∀ name, moves.getLast? = some (.down name) → T.lookup R name ≠ none

/-- The moves lead to the directory `R`, which lacks the first name of `rest`. -/
def Lacks (T : Tree ν) (budget : Nat) (moves : List (Move ν)) (R : List ν)
    (rest : List (Move ν)) : Prop :=
  ∃ front name behind left, moves = front ++ rest ∧ rest = .down name :: behind ∧
    T.walk budget (.dir []) front = .ok (left, .dir R) ∧ T.lookup R name = none

theorem exists_walk_dir_of_append {s : Spot ν} {front rest : List (Move ν)} {left : Nat}
    {R : List ν} (h : T.walk budget s (front ++ rest) = .ok (left, .dir R)) :
    ∃ left' R', T.walk budget s front = .ok (left', .dir R') ∧
      T.walk left' (.dir R') rest = .ok (left, .dir R) := by
  obtain ⟨left', spot, hfront, hrest⟩ := exists_walk_of_append h
  cases spot with
  | dir R' => exact ⟨left', R', hfront, hrest⟩
  | file R' name ino =>
      cases rest with
      | nil =>
          rw [walk_nil] at hrest
          cases hrest
      | cons move rest =>
          rw [walk_file_cons] at hrest
          cases hrest

theorem not_walk_of_lookup_eq_none {front rest : List (Move ν)} {s : Spot ν} {name : ν}
    {left : Nat} {R : List ν} (hfront : T.walk budget s front = .ok (left, .dir R))
    (hnone : T.lookup R name = none) (r : Nat × Spot ν) :
    T.walk budget s (front ++ .down name :: rest) ≠ .ok r := by
  rw [walk_append_of_ok hfront, walk_down_of_none hnone]
  exact fun h => nomatch h

/-- A last move that is not a name leads to a directory that is there. -/
theorem occupied_concat {front : List (Move ν)} {move : Move ν} {left : Nat} {R : List ν}
    (h : T.walk budget (.dir []) front = .ok (left, .dir R))
    (hmove : ∀ name, move = .down name → T.lookup R name ≠ none) :
    T.Occupied budget (front ++ [move]) := by
  refine ⟨left, R, ?_, ?_⟩
  · rw [List.dropLast_concat, h]
  · intro name hname
    rw [List.getLast?_concat] at hname
    exact hmove name (Option.some.inj hname)

theorem occupied_of_walk {moves : List (Move ν)} {left : Nat} {R : List ν}
    (h : T.walk budget (.dir []) moves = .ok (left, .dir R)) : T.Occupied budget moves := by
  cases hlast : moves.getLast? with
  | none =>
      obtain rfl := List.getLast?_eq_none_iff.mp hlast
      exact ⟨left, R, h, fun name hname => nomatch hname⟩
  | some move =>
      have hsplit := List.dropLast_append_getLast? move (Option.mem_def.mpr hlast)
      rw [← hsplit] at h ⊢
      obtain ⟨left', R', hfront, hrest⟩ := exists_walk_dir_of_append h
      apply occupied_concat hfront
      rintro name rfl hnone
      exact not_walk_of_lookup_eq_none hfront hnone _ h

theorem occupied_of_stands {s : Spot ν} (h : T.Stands s) :
    T.Occupied budget (s.path.map .down) := by
  have hwalk : ∀ R, T.IsDir R →
      T.walk budget (.dir []) (R.map .down) = .ok (budget, .dir R) := by
    intro R hR
    have hnames := walk_names (R := []) hR budget []
    rwa [List.append_nil, walk_nil, List.nil_append] at hnames
  cases s with
  | dir R => exact occupied_of_walk (hwalk R h)
  | file R name ino =>
      rw [Spot.path, List.map_append, List.map_singleton]
      apply occupied_concat (hwalk R (T.housed _ h))
      rintro other heq
      obtain rfl := Move.down.inj heq
      have hself := lookup_self h
      rw [hself]
      exact Option.some_ne_none _

theorem Occupied.not_lacks {moves rest : List (Move ν)} {R : List ν}
    (h : T.Occupied budget moves) : ¬ T.Lacks budget moves R rest := by
  rintro ⟨front, name, behind, left, rfl, rfl, hwalk, hnone⟩
  obtain ⟨left', R', hwalk', hlast⟩ := h
  cases behind using List.reverseRecOn with
  | nil =>
      rw [List.dropLast_concat, hwalk] at hwalk'
      cases hwalk'
      exact hlast name List.getLast?_concat hnone
  | append_singleton behind move =>
      rw [← List.cons_append, ← List.append_assoc, List.dropLast_concat] at hwalk'
      exact not_walk_of_lookup_eq_none hwalk hnone _ hwalk'

/-- A first part that lacks its next name is not passed by a longer one that is there. -/
theorem Lacks.not_walk_of_append {front ahead : List (Move ν)} {moves rest : List (Move ν)}
    {R : List ν} {r : Nat × Spot ν} (h : T.Lacks budget moves R rest)
    (hmoves : moves = front ++ ahead) (hlen : ahead.length < rest.length) :
    T.walk budget (.dir []) front ≠ .ok r := by
  obtain ⟨front', name, behind, left, hmoves', rfl, hwalk, hnone⟩ := h
  have hpre : front' ++ [.down name] <+: front := by
    have hall : front' ++ [.down name] <+: front ++ ahead := by
      rw [← hmoves, hmoves']
      exact ⟨behind, by simp⟩
    refine List.prefix_of_prefix_length_le hall (List.prefix_append _ _) ?_
    have hlens := congrArg List.length (hmoves.symm.trans hmoves')
    simp only [List.length_append, List.length_cons, List.length_nil] at hlens hlen ⊢
    omega
  obtain ⟨behind', rfl⟩ := hpre
  rw [List.append_assoc]
  exact not_walk_of_lookup_eq_none hwalk hnone r

/-- What lacks something lacks it in its first part, or the first part leads to
a directory. -/
theorem Lacks.of_append {front behind rest : List (Move ν)} {R : List ν}
    (h : T.Lacks budget (front ++ behind) R rest) :
    (∃ rest', T.Lacks budget front R rest') ∨
      ∃ left R', T.walk budget (.dir []) front = .ok (left, .dir R') := by
  obtain ⟨front', name, behind', left, hmoves, rfl, hwalk, hnone⟩ := h
  cases List.append_eq_append_iff.mp hmoves with
  | inl hlater =>
      obtain ⟨between, rfl, -⟩ := hlater
      obtain ⟨left', R', hfront, -⟩ := exists_walk_dir_of_append hwalk
      exact .inr ⟨left', R', hfront⟩
  | inr hwithin =>
      obtain ⟨between, rfl, hrest⟩ := hwithin
      cases between with
      | nil =>
          rw [List.append_nil]
          exact .inr ⟨left, R, hwalk⟩
      | cons move between =>
          obtain ⟨rfl, -⟩ := List.cons.inj hrest
          exact .inl ⟨_, front', name, between, left, rfl, rfl, hwalk, hnone⟩

theorem Lacks.unique {moves rest rest' : List (Move ν)} {R R' : List ν}
    (h : T.Lacks budget moves R rest) (h' : T.Lacks budget moves R' rest') :
    R = R' ∧ rest = rest' := by
  have hlen : rest.length = rest'.length := by
    obtain ⟨front, -, -, left, hmoves, -, hwalk, -⟩ := id h
    obtain ⟨front', -, -, left', hmoves', -, hwalk', -⟩ := id h'
    cases Nat.lt_trichotomy rest.length rest'.length with
    | inl hlt => exact absurd hwalk (h'.not_walk_of_append hmoves hlt)
    | inr hge =>
        cases hge with
        | inl heq => exact heq
        | inr hgt => exact absurd hwalk' (h.not_walk_of_append hmoves' hgt)
  obtain ⟨front, name, behind, left, hmoves, hrest, hwalk, hnone⟩ := h
  obtain ⟨front', name', behind', left', hmoves', hrest', hwalk', hnone'⟩ := h'
  obtain ⟨hfront, rfl⟩ := List.append_inj' (hmoves.symm.trans hmoves') hlen
  rw [← hfront, hwalk] at hwalk'
  cases hwalk'
  exact ⟨rfl, rfl⟩

end FileTree.Tree
