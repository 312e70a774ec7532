import Ffilesystem.Library.FileTree

/-!
# The directories that a walk searches

Each move of a walk is made in a directory, which has to be searched for it. What is
searched up to the end of a walk, or up to where it stops, are directories of the tree
(`isDir_of_mem_searched`). Whether they may be searched is no matter of the tree.
-/

namespace FileTree.Tree

open Lexical (Move)

variable {ν : Type*} [DecidableEq ν] (T : Tree ν)

/-- The directories that the moves are made in, given those behind a link. -/
def searchedWith (follow : List ν → List (Move ν) → List (List ν)) :
    Spot ν → List (Move ν) → List (List ν)
  | _, [] => []
  | .file .., _ :: _ => []
  | .dir R, .stay :: rest => R :: searchedWith follow (.dir R) rest
  | .dir R, .up :: rest => R :: searchedWith follow (.dir R.dropLast) rest
  | .dir R, .down name :: rest =>
      R :: match T.lookup R name with
      | none => []
      | some e =>
          match e.node with
          | .dir => searchedWith follow (.dir e.path) rest
          | .file ino => searchedWith follow (.file R e.name ino) rest
          | .link target => follow (if target.rooted then [] else R) (target.moves ++ rest)

/-- The directories that are searched on the walk from a spot. -/
def searched : Nat → Spot ν → List (Move ν) → List (List ν)
  | 0 => T.searchedWith (fun _ _ => [])
  | budget + 1 => T.searchedWith (fun R moves => searched budget (.dir R) moves)

variable {T}

theorem searched_nil (budget : Nat) (s : Spot ν) : T.searched budget s [] = [] := by
  cases budget <;> cases s <;> rfl

theorem searched_file_cons (budget : Nat) (R : List ν) (name : ν) (ino : Nat) (move : Move ν)
    (rest : List (Move ν)) : T.searched budget (.file R name ino) (move :: rest) = [] := by
  cases budget <;> rfl

theorem searched_stay_cons (budget : Nat) (R : List ν) (rest : List (Move ν)) :
    T.searched budget (.dir R) (.stay :: rest) = R :: T.searched budget (.dir R) rest := by
  cases budget <;> rfl

theorem searched_up_cons (budget : Nat) (R : List ν) (rest : List (Move ν)) :
    T.searched budget (.dir R) (.up :: rest) =
      R :: T.searched budget (.dir R.dropLast) rest := by
  cases budget <;> rfl

section Down

variable {R : List ν} {name : ν} {e : Entry ν}

theorem searched_down_of_none (h : T.lookup R name = none) (budget : Nat)
    (rest : List (Move ν)) : T.searched budget (.dir R) (.down name :: rest) = [R] := by
  cases budget <;> simp [searched, searchedWith, h]

theorem searched_down_of_dir (h : T.lookup R name = some e) (hnode : e.node = .dir)
    (budget : Nat) (rest : List (Move ν)) :
    T.searched budget (.dir R) (.down name :: rest) =
      R :: T.searched budget (.dir e.path) rest := by
  cases budget <;> simp [searched, searchedWith, h, hnode]

theorem searched_down_of_file {ino : Nat} (h : T.lookup R name = some e)
    (hnode : e.node = .file ino) (budget : Nat) (rest : List (Move ν)) :
    T.searched budget (.dir R) (.down name :: rest) =
      R :: T.searched budget (.file R e.name ino) rest := by
  cases budget <;> simp [searched, searchedWith, h, hnode]

theorem searched_down_of_link_zero {target : Target ν} (h : T.lookup R name = some e)
    (hnode : e.node = .link target) (rest : List (Move ν)) :
    T.searched 0 (.dir R) (.down name :: rest) = [R] := by
  simp [searched, searchedWith, h, hnode]

theorem searched_down_of_link_succ {target : Target ν} (h : T.lookup R name = some e)
    (hnode : e.node = .link target) (budget : Nat) (rest : List (Move ν)) :
    T.searched (budget + 1) (.dir R) (.down name :: rest) =
      R :: T.searched budget (.dir (if target.rooted then [] else R)) (target.moves ++ rest) := by
  simp [searched, searchedWith, h, hnode]

end Down

/-- A walk searches directories of the tree only. -/
theorem isDir_of_mem_searched {budget : Nat} {s : Spot ν} {moves : List (Move ν)} {D : List ν}
    (hs : T.Stands s) (h : D ∈ T.searched budget s moves) : T.IsDir D := by
  refine walk_induction (T := T) (motive := fun budget s moves =>
    T.Stands s → D ∈ T.searched budget s moves → T.IsDir D)
    ?nil ?file ?stay ?up ?missing ?toDir ?toFile ?tooMany ?link budget s moves hs h
  case nil =>
      intro budget s _ hmem
      rw [searched_nil] at hmem
      cases hmem
  case file =>
      intro budget R name ino move rest _ hmem
      rw [searched_file_cons] at hmem
      cases hmem
  case stay =>
      intro budget R rest ih hs hmem
      rw [searched_stay_cons] at hmem
      exact (List.mem_cons.mp hmem).elim (fun heq => heq ▸ hs) (ih hs)
  case up =>
      intro budget R rest ih hs hmem
      rw [searched_up_cons] at hmem
      exact (List.mem_cons.mp hmem).elim (fun heq => heq ▸ hs) (ih (IsDir.dropLast hs))
  case missing =>
      intro budget R name rest hnone hs hmem
      rw [searched_down_of_none hnone] at hmem
      exact List.mem_singleton.mp hmem ▸ hs
  case toDir =>
      intro budget R name rest e hfind hnode ih hs hmem
      rw [searched_down_of_dir hfind hnode] at hmem
      exact (List.mem_cons.mp hmem).elim (fun heq => heq ▸ hs)
        (ih (isDir_path (lookup_eq_some_iff.mp hfind).1 hnode))
  case toFile =>
      intro budget R name rest e ino hfind hnode ih hs hmem
      rw [searched_down_of_file hfind hnode] at hmem
      have hmade : (⟨R, e.name, .file ino⟩ : Entry ν) ∈ T.entries := by
        obtain ⟨hin, rfl, -⟩ := lookup_eq_some_iff.mp hfind
        exact hnode ▸ hin
      exact (List.mem_cons.mp hmem).elim (fun heq => heq ▸ hs) (ih hmade)
  case tooMany =>
      intro R name rest e target hfind hnode hs hmem
      rw [searched_down_of_link_zero hfind hnode] at hmem
      exact List.mem_singleton.mp hmem ▸ hs
  case link =>
      intro budget R name rest e target hfind hnode ih hs hmem
      rw [searched_down_of_link_succ hfind hnode] at hmem
      refine (List.mem_cons.mp hmem).elim (fun heq => heq ▸ hs) (ih ?_)
      show T.IsDir (if target.rooted then [] else R)
      split
      · exact isDir_root
      · exact hs

end FileTree.Tree
