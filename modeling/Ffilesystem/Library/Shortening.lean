import Ffilesystem.Library.Removal
import Ffilesystem.Library.Vacancy

/-!
# Shortening a walk through a tree

A lexical walk has a canonical form that reaches the same place. In a tree that
form may lead elsewhere, since going up from where a link led is not going back.
A walk that follows no link is safe: its canonical form arrives at the same spot
(`walk_moves_of_walk`).

The budget of a walk only says how many links it may follow. A walk that does
not run out of it ends alike with any larger one (`walk_budget`).
-/

namespace Lexical

variable {ν μ : Type*}

/-- The same move among other names. -/
def Move.map (f : ν → μ) : Move ν → Move μ
  | .stay => .stay
  | .up => .up
  | .down n => .down (f n)

namespace Place

/-- The place that the same walk reaches among other names. -/
def map (f : ν → μ) (m : Place ν) : Place μ := ⟨m.rooted, m.ups, m.names.map f, m.ups_of_rooted⟩

theorem moves_map (f : ν → μ) (m : Place ν) : (m.map f).moves = m.moves.map (Move.map f) := by
  simp only [moves, map, List.map_append, List.map_replicate, List.map_map]
  rfl

theorem step_map (f : ν → μ) (m : Place ν) (move : Move ν) :
    (m.map f).step (move.map f) = (m.step move).map f := by
  cases move with
  | stay => rfl
  | down n => ext <;> simp [map, step, Move.map]
  | up =>
      show (m.map f).step .up = (m.step .up).map f
      by_cases hnames : m.names = []
      · rw [step_up_of_names_nil hnames, step_up_of_names_nil (by simp [map, hnames])]
        cases hroot : m.rooted with
        | true => rw [climb_of_rooted hroot, climb_of_rooted (by simpa [map])]
        | false =>
            have hroot' : (m.map f).rooted = false := hroot
            ext
            · rw [climb_rooted, map, map, climb_rooted]
            · rw [climb_ups_of_not_rooted hroot', map, map, climb_ups_of_not_rooted hroot]
            · rw [climb_names, map, map, climb_names]
      · rw [step_up_of_names_ne_nil hnames, step_up_of_names_ne_nil (by simpa [map] using hnames)]
        ext <;> simp [map]

theorem walk_map (f : ν → μ) (m : Place ν) (moves : List (Move ν)) :
    (m.map f).walk (moves.map (Move.map f)) = (m.walk moves).map f := by
  induction moves generalizing m with
  | nil => rfl
  | cons move rest ih => rw [List.map_cons, walk_cons, walk_cons, step_map, ih]

theorem start_map (f : ν → μ) (rooted : Bool) : (start rooted : Place ν).map f = start rooted := rfl

theorem moves_walk_of_no_up [DecidableEq ν] (m : Place ν) {l : List (Move ν)}
    (h : Move.up ∉ l) : (m.walk l).moves = m.moves ++ l.filter (· ≠ .stay) := by
  induction l using List.reverseRecOn with
  | nil => exact (List.append_nil _).symm
  | append_singleton l move ih =>
      rw [List.mem_append, not_or] at h
      rw [walk_append, walk_cons, walk_nil, List.filter_append, ← List.append_assoc, ← ih h.1]
      cases move with
      | stay => simp
      | up => exact absurd List.mem_cons_self h.2
      | down n => simp [moves]

end Place

end Lexical

namespace FileTree

open Lexical (Move Place)

namespace Tree

variable {ν : Type*} [DecidableEq ν] {T : Tree ν}

/-- Following links only uses the budget up. -/
theorem walk_left_le {budget : Nat} {s : Spot ν} {moves : List (Move ν)} {r : Nat × Spot ν}
    (h : T.walk budget s moves = .ok r) : r.1 ≤ budget := by
  refine walk_ok_induction (motive := fun budget _ _ => r.1 ≤ budget)
    ?nil ?stay ?up ?toDir ?toFile ?link h
  case nil => exact Nat.le_refl _
  case stay => exact fun _ _ _ ih => ih
  case up => exact fun _ _ _ ih => ih
  case toDir => exact fun _ _ _ _ _ _ _ ih => ih
  case toFile => exact fun _ _ _ _ _ _ _ _ ih => ih
  case link => exact fun _ _ _ _ _ _ _ _ _ ih => Nat.le_succ_of_le ih

/-- What a walk arrives at, or why it stops, does not depend on the budget,
unless it is the budget that stops it. -/
theorem walk_budget {budget : Nat} {s : Spot ν} {moves : List (Move ν)}
    (h : T.walk budget s moves ≠ .error .loop) (k : Nat) :
    (T.walk (budget + k) s moves).map Prod.snd = (T.walk budget s moves).map Prod.snd := by
  refine walk_induction (T := T) (motive := fun budget s moves =>
    T.walk budget s moves ≠ .error .loop →
      (T.walk (budget + k) s moves).map Prod.snd = (T.walk budget s moves).map Prod.snd)
    ?nil ?file ?stay ?up ?missing ?toDir ?toFile ?tooMany ?link budget s moves h
  case nil =>
      intro budget s _
      rw [walk_nil, walk_nil]
      rfl
  case file =>
      intro budget R name ino move rest _
      rw [walk_file_cons, walk_file_cons]
  case stay =>
      intro budget R rest ih h
      rw [walk_stay_cons] at h ⊢
      rw [walk_stay_cons]
      exact ih h
  case up =>
      intro budget R rest ih h
      rw [walk_up_cons] at h ⊢
      rw [walk_up_cons]
      exact ih h
  case missing =>
      intro budget R name rest hnone _
      rw [walk_down_of_none hnone, walk_down_of_none hnone]
  case toDir =>
      intro budget R name rest e hfind hnode ih h
      rw [walk_down_of_dir hfind hnode] at h ⊢
      rw [walk_down_of_dir hfind hnode]
      exact ih h
  case toFile =>
      intro budget R name rest e ino hfind hnode ih h
      rw [walk_down_of_file hfind hnode] at h ⊢
      rw [walk_down_of_file hfind hnode]
      exact ih h
  case tooMany =>
      intro R name rest e target hfind hnode h
      exact absurd (walk_down_of_link_zero hfind hnode rest) h
  case link =>
      intro budget R name rest e target hfind hnode ih h
      rw [walk_down_of_link_succ hfind hnode] at h ⊢
      rw [Nat.add_right_comm, walk_down_of_link_succ hfind hnode]
      exact ih h

/-- A walk that may follow no link goes down only to what is there itself, and
going up again leads back. -/
theorem walk_zero_down {D D' : List ν} {name : ν}
    (h : T.walk 0 (.dir D) [.down name] = .ok (0, .dir D')) : D'.dropLast = D := by
  cases hfind : T.lookup D name with
  | none =>
      rw [walk_down_of_none hfind] at h
      cases h
  | some e =>
      obtain ⟨-, hdir, -⟩ := lookup_eq_some_iff.mp hfind
      cases hnode : e.node with
      | dir =>
          rw [walk_down_of_dir hfind hnode, walk_nil] at h
          cases h
          rw [Entry.path, List.dropLast_concat, hdir]
      | file ino =>
          rw [walk_down_of_file hfind hnode, walk_nil] at h
          cases h
      | link target =>
          rw [walk_down_of_link_zero hfind hnode] at h
          cases h

/-- Going up takes the last name of a place back, or climbs on, or stays at the root,
and a walk to the place that follows no link does alike. -/
theorem walk_step_up_moves {R D : List ν} {m : Place ν} (hroot : m.rooted = true → R = [])
    (h : T.walk 0 (.dir R) m.moves = .ok (0, .dir D)) :
    T.walk 0 (.dir R) (m.step .up).moves = .ok (0, .dir D.dropLast) := by
  cases hnames : m.names using List.reverseRecOn with
  | nil =>
      rw [Place.step_up_of_names_nil hnames]
      cases hm : m.rooted with
      | true =>
          have hnil : m.moves = [] := by
            rw [Place.moves, m.ups_of_rooted hm, hnames]
            rfl
          rw [hnil, walk_nil] at h
          cases h
          rw [Place.climb_of_rooted hm, hnil, hroot hm]
          exact walk_nil 0 _
      | false =>
          have hmoves : m.climb.moves = m.moves ++ [.up] := by
            rw [Place.moves, Place.moves, Place.climb_ups_of_not_rooted hm,
              Place.climb_names, hnames, List.replicate_succ']
            simp
          rw [hmoves, walk_append_of_ok h, walk_up_cons, walk_nil]
  | append_singleton names n =>
      have hne : m.names ≠ [] := by
        rw [hnames]
        exact List.concat_ne_nil _ _
      have hmoves : m.moves = (m.step .up).moves ++ [.down n] := by
        rw [Place.step_up_of_names_ne_nil hne]
        simp [Place.moves, hnames]
      rw [hmoves] at h
      obtain ⟨left, s, hfront, hdown⟩ := exists_walk_of_append h
      obtain rfl : left = 0 := Nat.le_zero.mp (walk_left_le hfront)
      cases s with
      | file D' name ino =>
          rw [walk_file_cons] at hdown
          cases hdown
      | dir D' => rw [hfront, walk_zero_down hdown]

/-- One more move of a walk that follows no link is one more step of the place. -/
theorem walk_step_moves {R : List ν} {m : Place ν} {move : Move ν} {s spot : Spot ν}
    (hroot : m.rooted = true → R = []) (h : T.walk 0 (.dir R) m.moves = .ok (0, s))
    (hlast : T.walk 0 s [move] = .ok (0, spot)) :
    T.walk 0 (.dir R) (m.step move).moves = .ok (0, spot) := by
  cases s with
  | file D name ino =>
      rw [walk_file_cons] at hlast
      cases hlast
  | dir D =>
      cases move with
      | stay =>
          rw [walk_stay_cons, walk_nil] at hlast
          cases hlast
          exact h
      | down n =>
          have hmoves : (m.step (.down n)).moves = m.moves ++ [.down n] := by
            simp [Place.moves]
          rw [hmoves, walk_append_of_ok h, hlast]
      | up =>
          rw [walk_up_cons, walk_nil] at hlast
          cases hlast
          exact walk_step_up_moves hroot h

/-- A walk without links arrives where the canonical walk to its place arrives. -/
theorem walk_moves_of_walk {R : List ν} {rooted : Bool} (hroot : rooted = true → R = [])
    {l : List (Move ν)} {spot : Spot ν} (h : T.walk 0 (.dir R) l = .ok (0, spot)) :
    T.walk 0 (.dir R) ((Place.start rooted).walk l).moves = .ok (0, spot) := by
  induction l using List.reverseRecOn generalizing spot with
  | nil =>
      rw [walk_nil] at h
      cases h
      cases rooted <;> exact walk_nil 0 _
  | append_singleton l move ih =>
      obtain ⟨left, s, hfront, hlast⟩ := exists_walk_of_append h
      obtain rfl : left = 0 := Nat.le_zero.mp (walk_left_le hfront)
      rw [Place.walk_append, Place.walk_cons, Place.walk_nil]
      apply walk_step_moves
      · simpa using hroot
      · exact ih hfront
      · exact hlast

theorem walk_filter_stay {budget : Nat} {s : Spot ν} {l : List (Move ν)} {r : Nat × Spot ν}
    (h : T.walk budget s l = .ok r) : T.walk budget s (l.filter (· ≠ .stay)) = .ok r := by
  induction l generalizing budget s with
  | nil => exact h
  | cons move rest ih =>
      have hcut : T.walk budget s ([move] ++ rest) = .ok r := h
      obtain ⟨left, s', hfirst, hrest⟩ := exists_walk_of_append hcut
      have hfiltered := ih hrest
      cases move with
      | stay =>
          cases s with
          | file R name ino =>
              rw [walk_file_cons] at hfirst
              cases hfirst
          | dir R =>
              rw [walk_stay_cons, walk_nil] at hfirst
              cases hfirst
              simpa using hfiltered
      | up =>
          have hcons : (Move.up :: rest).filter (· ≠ .stay) =
              [Move.up] ++ rest.filter (· ≠ .stay) := by simp
          rw [hcons, walk_append_of_ok hfirst, hfiltered]
      | down n =>
          have hcons : (Move.down n :: rest).filter (· ≠ .stay) =
              [Move.down n] ++ rest.filter (· ≠ .stay) := by simp
          rw [hcons, walk_append_of_ok hfirst, hfiltered]

/-- Moves that stay do not hinder a walk that goes through directories only. -/
theorem walk_of_filter_stay {budget left : Nat} {R Q : List ν} {l : List (Move ν)}
    (h : T.walk budget (.dir R) (l.filter (· ≠ .stay)) = .ok (left, .dir Q)) :
    T.walk budget (.dir R) l = .ok (left, .dir Q) := by
  induction l generalizing budget R with
  | nil => exact h
  | cons move rest ih =>
      by_cases hstay : move = .stay
      · rw [hstay, walk_stay_cons]
        exact ih (by simpa [hstay] using h)
      · have hcut : T.walk budget (.dir R) ([move] ++ rest.filter (· ≠ .stay)) =
            .ok (left, .dir Q) := by simpa [hstay] using h
        obtain ⟨left', R', hfirst, hrest⟩ := exists_walk_dir_of_append hcut
        exact (walk_append_of_ok hfirst rest).trans (ih hrest)

end Tree

end FileTree
