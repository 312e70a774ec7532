import Ffilesystem.Library.Shortening

/-!
# The way from one place of a tree to another

Two paths from the root share a first part and part at some name. The way from the
end of the one to the end of the other goes up by the names that only the first has
and down by the names that only the second has. It follows no link.
-/

namespace FileTree

open Lexical

section Mismatch

variable {α β : Type*} [DecidableEq α] [DecidableEq β]

/-- What is left of two lists behind their longest common first part. -/
def mismatch : List α → List α → List α × List α
  | a :: p, b :: q => if a = b then mismatch p q else (a :: p, b :: q)
  | p, q => (p, q)

theorem mismatch_cons_self (a : α) (p q : List α) :
    mismatch (a :: p) (a :: q) = mismatch p q := if_pos rfl

/-- Both lists begin with the same part. -/
theorem exists_mismatch (p q : List α) :
    ∃ common, p = common ++ (mismatch p q).1 ∧ q = common ++ (mismatch p q).2 := by
  induction p generalizing q with
  | nil => exact ⟨[], rfl, rfl⟩
  | cons a p ih =>
      cases q with
      | nil => exact ⟨[], rfl, rfl⟩
      | cons b q =>
          rw [mismatch]
          split
          · rename_i heq
            obtain ⟨common, hp, hq⟩ := ih q
            refine ⟨a :: common, congrArg (a :: ·) hp, ?_⟩
            rw [← heq]
            exact congrArg (a :: ·) hq
          · exact ⟨[], rfl, rfl⟩

/-- An element that the other list does not have ends what is left. -/
theorem mismatch_concat {x : α} {q : List α} (hx : x ∉ q) (p : List α) :
    mismatch (p ++ [x]) q = ((mismatch p q).1 ++ [x], (mismatch p q).2) := by
  induction p generalizing q with
  | nil =>
      cases q with
      | nil => rfl
      | cons b q =>
          refine if_neg ?_
          rintro rfl
          exact hx List.mem_cons_self
  | cons a p ih =>
      cases q with
      | nil => rfl
      | cons b q =>
          rw [List.cons_append, mismatch, mismatch]
          split
          · exact ih fun hmem => hx (List.mem_cons_of_mem _ hmem)
          · rfl

theorem mismatch_map {f : α → β} (hf : Function.Injective f) (p q : List α) :
    mismatch (p.map f) (q.map f) = ((mismatch p q).1.map f, (mismatch p q).2.map f) := by
  induction p generalizing q with
  | nil => rfl
  | cons a p ih =>
      cases q with
      | nil => rfl
      | cons b q =>
          rw [List.map_cons, List.map_cons, mismatch, mismatch]
          by_cases heq : a = b
          · rw [if_pos heq, if_pos (congrArg f heq), ih]
          · rw [if_neg heq, if_neg (fun h => heq (hf h))]
            rfl

end Mismatch

end FileTree

namespace Lexical.Place

open FileTree

variable {ν μ : Type*} [DecidableEq ν] [DecidableEq μ]

/-- The way from the place `R` below the root to the place `S`. -/
def between (R S : List ν) : Place ν where
  rooted := false
  ups := (mismatch S R).2.length
  names := (mismatch S R).1
  ups_of_rooted := fun h => absurd h Bool.false_ne_true

/-- The place with these names below the root. -/
def below (names : List ν) : Place ν := ⟨true, 0, names, fun _ => rfl⟩

omit [DecidableEq ν] in
theorem walk_replicate_up_below (P Q : List ν) :
    (below (P ++ Q)).walk (List.replicate Q.length .up) = below P := by
  induction Q using List.reverseRecOn with
  | nil => rw [List.append_nil]; rfl
  | append_singleton Q name ih =>
      rw [List.length_append, List.length_singleton, List.replicate_succ, walk_cons,
        step_up_of_names_ne_nil (by simp [below])]
      have hlast : ({ below (P ++ (Q ++ [name])) with
          names := (below (P ++ (Q ++ [name]))).names.dropLast } : Place ν) = below (P ++ Q) := by
        rw [← List.append_assoc]
        exact congrArg below List.dropLast_concat
      rw [hlast, ih]

/-- The way between two places leads from the one to the other. -/
theorem walk_between (R S : List ν) : (below R).walk (between R S).moves = below S := by
  obtain ⟨common, hS, hR⟩ := exists_mismatch S R
  have hup := walk_replicate_up_below common (mismatch S R).2
  have hdown := walk_map_down (below common) (mismatch S R).1
  rw [← hR] at hup
  rw [moves, walk_append]
  show ((below R).walk (List.replicate (mismatch S R).2.length .up)).walk
    ((mismatch S R).1.map .down) = _
  rw [hup, hdown]
  exact congrArg below hS.symm

end Lexical.Place

namespace FileTree

open Lexical

namespace Tree

variable {ν : Type*} [DecidableEq ν] {T : Tree ν}

end Tree

end FileTree
