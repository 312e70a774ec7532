import Mathlib.Data.List.Induction
import Mathlib.Data.List.Pairwise
import Ffilesystem.Library.Place

/-!
# A tree of directory entries, and walks through it

A tree is a finite list of entries. Each names the directory it stands in by
the names on the way down from the root, and is a directory, a file (known by
its inode number, so that several names can share one file), or a symbolic
link. The structure carries what every file system keeps: an entry stands in a
directory that is there, and no two entries of a directory have equal names. When
names are equal is part of the tree (`fold`), which covers lookups that ignore
case.

A walk follows a sequence of moves from a spot of the tree. Links are followed
by walking their moves first, and every link costs one unit of a budget. The
laws proved here are about all trees: a walk splits at any point
(`walk_append`), its end is there (`walk_stands`), and a larger tree keeps
every walk that arrives (`Extends.walk`).
-/

namespace FileTree

open Lexical (Move)

variable {ν : Type*}

/-- The text of a symbolic link, as moves. -/
structure Target (ν : Type*) where
  rooted : Bool
  moves : List (Move ν)
  deriving DecidableEq

inductive Node (ν : Type*)
  | dir
  | file (ino : Nat)
  | link (target : Target ν)
  deriving DecidableEq

structure Entry (ν : Type*) where
  dir : List ν
  name : ν
  node : Node ν
  deriving DecidableEq

/-- The names on the way from the root to an entry. -/
def Entry.path (e : Entry ν) : List ν := e.dir ++ [e.name]

/-- Some entry is a directory at `R`; the root needs none. -/
def IsDirIn (entries : List (Entry ν)) (R : List ν) : Prop :=
  R = [] ∨ ∃ e ∈ entries, e.node = .dir ∧ e.path = R

instance [DecidableEq ν] (entries : List (Entry ν)) : DecidablePred (IsDirIn entries) :=
  fun R => by
    unfold IsDirIn
    infer_instance

/-- Two entries that one lookup cannot both answer. -/
def Apart (fold : ν → ν) (a b : Entry ν) : Prop := a.dir = b.dir → fold a.name ≠ fold b.name

instance [DecidableEq ν] (fold : ν → ν) : DecidableRel (Apart fold) := fun a b => by
  unfold Apart
  infer_instance

instance (fold : ν → ν) : Std.Symm (Apart fold) where
  symm _ _ h hdir hname := h hdir.symm hname.symm

structure Tree (ν : Type*) where
  entries : List (Entry ν)
  /-- Two names are the same name when they fold to the same value. -/
  fold : ν → ν
  distinct : entries.Pairwise (Apart fold)
  housed : ∀ e ∈ entries, IsDirIn entries e.dir

/-- Where a walk stands: in a directory, or on a file at one of its names. -/
inductive Spot (ν : Type*)
  | dir (R : List ν)
  | file (R : List ν) (name : ν) (ino : Nat)
  deriving DecidableEq

/-- Why a walk ends early: a name that is not there, with the moves that were
still to come; a file where a directory is needed; or too many links. -/
inductive Stop (ν : Type*)
  | missing (R : List ν) (name : ν) (rest : List (Move ν))
  | notDir
  | loop
  deriving DecidableEq

/-- A walk that goes on after a stop had more moves to come. -/
def Stop.before (rest : List (Move ν)) : Stop ν → Stop ν
  | .missing R name moves => .missing R name (moves ++ rest)
  | .notDir => .notDir
  | .loop => .loop

namespace Spot

/-- The names on the way from the root to a spot. -/
def path : Spot ν → List ν
  | .dir R => R
  | .file R name _ => R ++ [name]

def isDir : Spot ν → Bool
  | .dir _ => true
  | .file .. => false

end Spot

namespace Tree

variable [DecidableEq ν] (T : Tree ν)

def IsDir (R : List ν) : Prop := IsDirIn T.entries R

instance : DecidablePred T.IsDir := fun R => inferInstanceAs (Decidable (IsDirIn T.entries R))

def lookup (R : List ν) (name : ν) : Option (Entry ν) :=
  T.entries.find? (fun e => e.dir = R ∧ T.fold e.name = T.fold name)

/-- The walk from a spot, given what following a link does. -/
def walkWith (budget : Nat)
    (follow : List ν → List (Move ν) → Except (Stop ν) (Nat × Spot ν)) :
    Spot ν → List (Move ν) → Except (Stop ν) (Nat × Spot ν)
  | s, [] => .ok (budget, s)
  | .file .., _ :: _ => .error .notDir
  | .dir R, .stay :: rest => walkWith budget follow (.dir R) rest
  | .dir R, .up :: rest => walkWith budget follow (.dir R.dropLast) rest
  | .dir R, .down name :: rest =>
      match T.lookup R name with
      | none => .error (.missing R name rest)
      | some e =>
          match e.node with
          | .dir => walkWith budget follow (.dir e.path) rest
          | .file ino => walkWith budget follow (.file R e.name ino) rest
          | .link target => follow (if target.rooted then [] else R) (target.moves ++ rest)

/-- The walk from a spot that may follow `budget` links, with the budget left
at its end. -/
def walk : Nat → Spot ν → List (Move ν) → Except (Stop ν) (Nat × Spot ν)
  | 0 => T.walkWith 0 (fun _ _ => .error .loop)
  | budget + 1 => T.walkWith (budget + 1) (fun R moves => walk budget (.dir R) moves)

section Entries

variable {T}

omit [DecidableEq ν] in
/-- Two entries of one directory whose names fold alike are one entry. -/
theorem eq_of_fold_eq {a b : Entry ν} (ha : a ∈ T.entries) (hb : b ∈ T.entries)
    (hdir : a.dir = b.dir) (hname : T.fold a.name = T.fold b.name) : a = b := by
  by_contra hne
  exact T.distinct.forall ha hb hne hdir hname

theorem lookup_eq_some_iff {R : List ν} {name : ν} {e : Entry ν} :
    T.lookup R name = some e ↔
      e ∈ T.entries ∧ e.dir = R ∧ T.fold e.name = T.fold name := by
  have hsound : ∀ e', T.lookup R name = some e' →
      e' ∈ T.entries ∧ e'.dir = R ∧ T.fold e'.name = T.fold name := by
    intro e' h
    exact ⟨List.mem_of_find?_eq_some h, by simpa using List.find?_some h⟩
  constructor
  · exact hsound e
  · rintro ⟨hmem, hdir, hname⟩
    cases hfind : T.lookup R name with
    | none =>
        have hnone := List.find?_eq_none.mp hfind e hmem
        simp [hdir, hname] at hnone
    | some e' =>
        obtain ⟨hmem', hdir', hname'⟩ := hsound e' hfind
        rw [eq_of_fold_eq hmem' hmem (hdir'.trans hdir.symm) (hname'.trans hname.symm)]

theorem lookup_self {e : Entry ν} (h : e ∈ T.entries) : T.lookup e.dir e.name = some e :=
  lookup_eq_some_iff.mpr ⟨h, rfl, rfl⟩

omit [DecidableEq ν] in
theorem isDir_root : T.IsDir [] := .inl rfl

omit [DecidableEq ν] in
theorem isDir_path {e : Entry ν} (h : e ∈ T.entries) (hnode : e.node = .dir) :
    T.IsDir e.path := .inr ⟨e, h, hnode, rfl⟩

theorem IsDir.exists_lookup {R : List ν} {name : ν} (h : T.IsDir (R ++ [name])) :
    T.IsDir R ∧ T.lookup R name = some ⟨R, name, .dir⟩ := by
  cases h with
  | inl hroot => exact absurd hroot (by simp)
  | inr h =>
      obtain ⟨⟨dir, n, node⟩, hmem, hnode, hpath⟩ := h
      obtain ⟨rfl, hname⟩ := List.append_inj' hpath rfl
      obtain rfl : n = name := List.singleton_inj.mp hname
      obtain rfl : node = .dir := hnode
      exact ⟨T.housed _ hmem, lookup_self hmem⟩

omit [DecidableEq ν] in
/-- The directory above a directory is one. -/
theorem IsDir.dropLast {R : List ν} (h : T.IsDir R) : T.IsDir R.dropLast := by
  cases h with
  | inl hroot =>
      rw [hroot]
      exact isDir_root
  | inr h =>
      obtain ⟨e, hmem, -, rfl⟩ := h
      rw [Entry.path, List.dropLast_concat]
      exact T.housed e hmem

/-- Every directory on the way to a directory is one. -/
theorem IsDir.of_append {R names : List ν} (h : T.IsDir (R ++ names)) : T.IsDir R := by
  induction names using List.reverseRecOn with
  | nil => simpa using h
  | append_singleton names name ih =>
      rw [← List.append_assoc] at h
      exact ih h.exists_lookup.1

/-- Only directories have entries standing in them. -/
theorem dir_ne_path {e e' : Entry ν} (he : e ∈ T.entries) (hnode : e.node ≠ .dir)
    (he' : e' ∈ T.entries) : e'.dir ≠ e.path := by
  intro heq
  have hhoused := T.housed e' he'
  rw [heq] at hhoused
  obtain ⟨-, hfind⟩ := IsDir.exists_lookup hhoused
  rw [lookup_self he] at hfind
  exact hnode (congrArg Entry.node (Option.some.inj hfind))

/-- Nothing stands in a directory that is not there. -/
theorem lookup_eq_none_of_not_isDir {R : List ν} (h : ¬ T.IsDir R) (name : ν) :
    T.lookup R name = none := by
  cases hfind : T.lookup R name with
  | none => rfl
  | some e =>
      obtain ⟨hmem, rfl, -⟩ := lookup_eq_some_iff.mp hfind
      exact absurd (T.housed e hmem) h

end Entries

section Walk

variable {T}

@[simp] theorem walk_nil (budget : Nat) (s : Spot ν) :
    T.walk budget s [] = .ok (budget, s) := by
  cases budget <;> cases s <;> rfl

@[simp] theorem walk_file_cons (budget : Nat) (R : List ν) (name : ν) (ino : Nat)
    (move : Move ν) (rest : List (Move ν)) :
    T.walk budget (.file R name ino) (move :: rest) = .error .notDir := by
  cases budget <;> rfl

@[simp] theorem walk_stay_cons (budget : Nat) (R : List ν) (rest : List (Move ν)) :
    T.walk budget (.dir R) (.stay :: rest) = T.walk budget (.dir R) rest := by
  cases budget <;> rfl

@[simp] theorem walk_up_cons (budget : Nat) (R : List ν) (rest : List (Move ν)) :
    T.walk budget (.dir R) (.up :: rest) = T.walk budget (.dir R.dropLast) rest := by
  cases budget <;> rfl

theorem walk_down_of_none {R : List ν} {name : ν} (h : T.lookup R name = none)
    (budget : Nat) (rest : List (Move ν)) :
    T.walk budget (.dir R) (.down name :: rest) = .error (.missing R name rest) := by
  cases budget <;> simp [walk, walkWith, h]

theorem walk_down_of_dir {R : List ν} {name : ν} {e : Entry ν} (h : T.lookup R name = some e)
    (hnode : e.node = .dir) (budget : Nat) (rest : List (Move ν)) :
    T.walk budget (.dir R) (.down name :: rest) = T.walk budget (.dir e.path) rest := by
  cases budget <;> simp [walk, walkWith, h, hnode]

theorem walk_down_of_file {R : List ν} {name : ν} {e : Entry ν} {ino : Nat}
    (h : T.lookup R name = some e) (hnode : e.node = .file ino) (budget : Nat)
    (rest : List (Move ν)) :
    T.walk budget (.dir R) (.down name :: rest) =
      T.walk budget (.file R e.name ino) rest := by
  cases budget <;> simp [walk, walkWith, h, hnode]

theorem walk_down_of_link_zero {R : List ν} {name : ν} {e : Entry ν} {target : Target ν}
    (h : T.lookup R name = some e) (hnode : e.node = .link target) (rest : List (Move ν)) :
    T.walk 0 (.dir R) (.down name :: rest) = .error .loop := by
  simp [walk, walkWith, h, hnode]

theorem walk_down_of_link_succ {R : List ν} {name : ν} {e : Entry ν} {target : Target ν}
    (h : T.lookup R name = some e) (hnode : e.node = .link target) (budget : Nat)
    (rest : List (Move ν)) :
    T.walk (budget + 1) (.dir R) (.down name :: rest) =
      T.walk budget (.dir (if target.rooted then [] else R)) (target.moves ++ rest) := by
  simp [walk, walkWith, h, hnode]

/-- The cases of a walk up to its first link. -/
theorem walk_induction_moves {motive : Spot ν → List (Move ν) → Prop}
    (nil : ∀ s, motive s [])
    (file : ∀ R name ino move rest, motive (.file R name ino) (move :: rest))
    (stay : ∀ R rest, motive (.dir R) rest → motive (.dir R) (.stay :: rest))
    (up : ∀ R rest, motive (.dir R.dropLast) rest → motive (.dir R) (.up :: rest))
    (missing : ∀ R name rest, T.lookup R name = none → motive (.dir R) (.down name :: rest))
    (toDir : ∀ R name rest e, T.lookup R name = some e → e.node = .dir →
      motive (.dir e.path) rest → motive (.dir R) (.down name :: rest))
    (toFile : ∀ R name rest e ino, T.lookup R name = some e → e.node = .file ino →
      motive (.file R e.name ino) rest → motive (.dir R) (.down name :: rest))
    (link : ∀ R name rest e target, T.lookup R name = some e → e.node = .link target →
      motive (.dir R) (.down name :: rest))
    (s : Spot ν) (moves : List (Move ν)) : motive s moves := by
  induction moves generalizing s with
  | nil => exact nil s
  | cons move rest ih =>
      cases s with
      | file R name ino => exact file R name ino move rest
      | dir R =>
          cases move with
          | stay => exact stay R rest (ih _)
          | up => exact up R rest (ih _)
          | down name =>
              cases h : T.lookup R name with
              | none => exact missing R name rest h
              | some e =>
                  cases hnode : e.node with
                  | dir => exact toDir R name rest e h hnode (ih _)
                  | file ino => exact toFile R name rest e ino h hnode (ih _)
                  | link target => exact link R name rest e target h hnode

/-- The cases of a walk, one for each thing a move can meet. The induction is on
the budget, and for one budget on the moves. -/
theorem walk_induction {motive : Nat → Spot ν → List (Move ν) → Prop}
    (nil : ∀ budget s, motive budget s [])
    (file : ∀ budget R name ino move rest, motive budget (.file R name ino) (move :: rest))
    (stay : ∀ budget R rest, motive budget (.dir R) rest → motive budget (.dir R) (.stay :: rest))
    (up : ∀ budget R rest, motive budget (.dir R.dropLast) rest →
      motive budget (.dir R) (.up :: rest))
    (missing : ∀ budget R name rest, T.lookup R name = none →
      motive budget (.dir R) (.down name :: rest))
    (toDir : ∀ budget R name rest e, T.lookup R name = some e → e.node = .dir →
      motive budget (.dir e.path) rest → motive budget (.dir R) (.down name :: rest))
    (toFile : ∀ budget R name rest e ino, T.lookup R name = some e → e.node = .file ino →
      motive budget (.file R e.name ino) rest → motive budget (.dir R) (.down name :: rest))
    (tooMany : ∀ R name rest e target, T.lookup R name = some e → e.node = .link target →
      motive 0 (.dir R) (.down name :: rest))
    (link : ∀ budget R name rest e target, T.lookup R name = some e → e.node = .link target →
      motive budget (.dir (if target.rooted then [] else R)) (target.moves ++ rest) →
      motive (budget + 1) (.dir R) (.down name :: rest))
    (budget : Nat) (s : Spot ν) (moves : List (Move ν)) : motive budget s moves := by
  induction budget generalizing s moves with
  | zero =>
      exact walk_induction_moves (nil 0) (file 0) (stay 0) (up 0) (missing 0) (toDir 0) (toFile 0)
        tooMany s moves
  | succ budget ih =>
      exact walk_induction_moves (nil _) (file _) (stay _) (up _) (missing _) (toDir _) (toFile _)
        (fun R name rest e target hfind hnode =>
          link budget R name rest e target hfind hnode (ih _ _)) s moves

/-- The cases of a walk that arrives: it meets no file before its end, misses no
name and follows no more links than its budget has. -/
theorem walk_ok_induction {r : Nat × Spot ν} {motive : Nat → Spot ν → List (Move ν) → Prop}
    (nil : motive r.1 r.2 [])
    (stay : ∀ budget R rest, motive budget (.dir R) rest → motive budget (.dir R) (.stay :: rest))
    (up : ∀ budget R rest, motive budget (.dir R.dropLast) rest →
      motive budget (.dir R) (.up :: rest))
    (toDir : ∀ budget R name rest e, T.lookup R name = some e → e.node = .dir →
      motive budget (.dir e.path) rest → motive budget (.dir R) (.down name :: rest))
    (toFile : ∀ budget R name rest e ino, T.lookup R name = some e → e.node = .file ino →
      motive budget (.file R e.name ino) rest → motive budget (.dir R) (.down name :: rest))
    (link : ∀ budget R name rest e target, T.lookup R name = some e → e.node = .link target →
      T.walk budget (.dir (if target.rooted then [] else R)) (target.moves ++ rest) = .ok r →
      motive budget (.dir (if target.rooted then [] else R)) (target.moves ++ rest) →
      motive (budget + 1) (.dir R) (.down name :: rest))
    {budget : Nat} {s : Spot ν} {moves : List (Move ν)} (h : T.walk budget s moves = .ok r) :
    motive budget s moves := by
  refine walk_induction (T := T) (motive := fun budget s moves =>
    T.walk budget s moves = .ok r → motive budget s moves)
    ?nil ?file ?stay ?up ?missing ?toDir ?toFile ?tooMany ?link budget s moves h
  case nil =>
      intro budget s h
      rw [walk_nil] at h
      cases h
      exact nil
  case file =>
      intro budget R name ino move rest h
      rw [walk_file_cons] at h
      cases h
  case stay =>
      intro budget R rest ih h
      exact stay budget R rest (ih (walk_stay_cons budget R rest ▸ h))
  case up =>
      intro budget R rest ih h
      exact up budget R rest (ih (walk_up_cons budget R rest ▸ h))
  case missing =>
      intro budget R name rest hnone h
      rw [walk_down_of_none hnone] at h
      cases h
  case toDir =>
      intro budget R name rest e hfind hnode ih h
      rw [walk_down_of_dir hfind hnode] at h
      exact toDir budget R name rest e hfind hnode (ih h)
  case toFile =>
      intro budget R name rest e ino hfind hnode ih h
      rw [walk_down_of_file hfind hnode] at h
      exact toFile budget R name rest e ino hfind hnode (ih h)
  case tooMany =>
      intro R name rest e target hfind hnode h
      rw [walk_down_of_link_zero hfind hnode] at h
      cases h
  case link =>
      intro budget R name rest e target hfind hnode ih h
      rw [walk_down_of_link_succ hfind hnode] at h
      exact link budget R name rest e target hfind hnode h (ih h)

/-- A walk in two parts is the walk of the first part and then of the second. -/
theorem walk_append (budget : Nat) (s : Spot ν) (front rest : List (Move ν)) :
    T.walk budget s (front ++ rest) =
      match T.walk budget s front with
      | .ok (left, spot) => T.walk left spot rest
      | .error stop => .error (stop.before rest) := by
  refine walk_induction (T := T) (motive := fun budget s front =>
    T.walk budget s (front ++ rest) = match T.walk budget s front with
      | .ok (left, spot) => T.walk left spot rest
      | .error stop => .error (stop.before rest))
    ?nil ?file ?stay ?up ?missing ?toDir ?toFile ?tooMany ?link budget s front
  case nil =>
      intro budget s
      rw [walk_nil, List.nil_append]
  case file =>
      intro budget R name ino move front
      rw [walk_file_cons, List.cons_append, walk_file_cons]
      rfl
  case stay =>
      intro budget R front ih
      rw [walk_stay_cons, List.cons_append, walk_stay_cons, ih]
  case up =>
      intro budget R front ih
      rw [walk_up_cons, List.cons_append, walk_up_cons, ih]
  case missing =>
      intro budget R name front h
      rw [walk_down_of_none h, List.cons_append, walk_down_of_none h]
      rfl
  case toDir =>
      intro budget R name front e h hnode ih
      rw [walk_down_of_dir h hnode, List.cons_append, walk_down_of_dir h hnode, ih]
  case toFile =>
      intro budget R name front e ino h hnode ih
      rw [walk_down_of_file h hnode, List.cons_append, walk_down_of_file h hnode, ih]
  case tooMany =>
      intro R name front e target h hnode
      rw [walk_down_of_link_zero h hnode, List.cons_append, walk_down_of_link_zero h hnode]
      rfl
  case link =>
      intro budget R name front e target h hnode ih
      rw [walk_down_of_link_succ h hnode, List.cons_append, walk_down_of_link_succ h hnode,
        ← List.append_assoc, ih]

theorem walk_append_of_ok {budget left : Nat} {s spot : Spot ν} {front : List (Move ν)}
    (h : T.walk budget s front = .ok (left, spot)) (rest : List (Move ν)) :
    T.walk budget s (front ++ rest) = T.walk left spot rest := by
  rw [walk_append, h]

/-- The first part of a walk that arrives arrives. -/
theorem exists_walk_of_append {budget : Nat} {s : Spot ν} {front rest : List (Move ν)}
    {r : Nat × Spot ν} (h : T.walk budget s (front ++ rest) = .ok r) :
    ∃ left spot, T.walk budget s front = .ok (left, spot) ∧
      T.walk left spot rest = .ok r := by
  rw [walk_append] at h
  cases hfront : T.walk budget s front with
  | error stop =>
      rw [hfront] at h
      cases h
  | ok arrival =>
      obtain ⟨left, spot⟩ := arrival
      rw [hfront] at h
      exact ⟨left, spot, rfl, h⟩

/-- A spot that is there: its directory is one, and its file stands in it. -/
def Stands (T : Tree ν) : Spot ν → Prop
  | .dir R => T.IsDir R
  | .file R name ino => ⟨R, name, .file ino⟩ ∈ T.entries

theorem walk_stands {budget : Nat} {s : Spot ν} {moves : List (Move ν)}
    {r : Nat × Spot ν} (hs : T.Stands s) (h : T.walk budget s moves = .ok r) :
    T.Stands r.2 := by
  refine walk_ok_induction (motive := fun _ s _ => T.Stands s → T.Stands r.2)
    ?nil ?stay ?up ?toDir ?toFile ?link h hs
  case nil => exact id
  case stay =>
      intro budget R rest ih
      exact ih
  case up =>
      intro budget R rest ih hs
      exact ih (IsDir.dropLast hs)
  case toDir =>
      intro budget R name rest e hfind hnode ih _
      exact ih (isDir_path (lookup_eq_some_iff.mp hfind).1 hnode)
  case toFile =>
      intro budget R name rest e ino hfind hnode ih _
      obtain ⟨hmem, rfl, -⟩ := lookup_eq_some_iff.mp hfind
      exact ih (show (⟨e.dir, e.name, .file ino⟩ : Entry ν) ∈ T.entries from hnode ▸ hmem)
  case link =>
      intro budget R name rest e target hfind hnode _ ih hs
      apply ih
      show T.IsDir (if target.rooted then [] else R)
      split
      · exact isDir_root
      · exact hs

/-- The names of a directory lead to it. -/
theorem walk_names {R names : List ν} (h : T.IsDir (R ++ names)) (budget : Nat)
    (rest : List (Move ν)) :
    T.walk budget (.dir R) (names.map .down ++ rest) = T.walk budget (.dir (R ++ names)) rest := by
  induction names generalizing R with
  | nil => simp
  | cons name names ih =>
      rw [List.append_cons] at h ⊢
      have hfind := (IsDir.of_append h).exists_lookup.2
      rw [List.map_cons, List.cons_append, walk_down_of_dir hfind rfl, Entry.path, ih h]

end Walk

section Extension

/-- Everything that is found in `T` is found unchanged in `T'`. -/
structure Extends (T T' : Tree ν) : Prop where
  isDir : ∀ R, T.IsDir R → T'.IsDir R
  lookup : ∀ R name e, T.lookup R name = some e → T'.lookup R name = some e

variable {T}

theorem Extends.refl (T : Tree ν) : T.Extends T := ⟨fun _ h => h, fun _ _ _ h => h⟩

theorem Extends.trans {T' T'' : Tree ν} (h : T.Extends T') (h' : T'.Extends T'') :
    T.Extends T'' :=
  ⟨fun R hR => h'.isDir R (h.isDir R hR),
    fun R name e he => h'.lookup R name e (h.lookup R name e he)⟩

/-- What a walk comes to in a larger tree, by what it comes to in the tree: the
same, unless it missed a name, which may be there now. -/
def Continues (T T' : Tree ν) :
    Except (Stop ν) (Nat × Spot ν) → Except (Stop ν) (Nat × Spot ν) → Prop
  | .ok r, r' => r' = .ok r
  | .error (.missing R name rest), r' =>
      T.lookup R name = none ∧ ∃ left, r' = T'.walk left (.dir R) (.down name :: rest)
  | .error .notDir, r' => r' = .error .notDir
  | .error .loop, r' => r' = .error .loop

theorem Extends.walk_continues {T' : Tree ν} (hext : T.Extends T') (budget : Nat) (s : Spot ν)
    (moves : List (Move ν)) :
    Continues T T' (T.walk budget s moves) (T'.walk budget s moves) := by
  refine walk_induction (T := T) (motive := fun budget s moves =>
    Continues T T' (T.walk budget s moves) (T'.walk budget s moves))
    ?nil ?file ?stay ?up ?missing ?toDir ?toFile ?tooMany ?link budget s moves
  case nil =>
      intro budget s
      rw [walk_nil, walk_nil]
      rfl
  case file =>
      intro budget R name ino move rest
      rw [walk_file_cons, walk_file_cons]
      rfl
  case stay =>
      intro budget R rest ih
      rw [walk_stay_cons, walk_stay_cons]
      exact ih
  case up =>
      intro budget R rest ih
      rw [walk_up_cons, walk_up_cons]
      exact ih
  case missing =>
      intro budget R name rest hnone
      rw [walk_down_of_none hnone]
      exact ⟨hnone, budget, rfl⟩
  case toDir =>
      intro budget R name rest e hfind hnode ih
      rw [walk_down_of_dir hfind hnode, walk_down_of_dir (hext.lookup _ _ _ hfind) hnode]
      exact ih
  case toFile =>
      intro budget R name rest e ino hfind hnode ih
      rw [walk_down_of_file hfind hnode, walk_down_of_file (hext.lookup _ _ _ hfind) hnode]
      exact ih
  case tooMany =>
      intro R name rest e target hfind hnode
      rw [walk_down_of_link_zero hfind hnode,
        walk_down_of_link_zero (hext.lookup _ _ _ hfind) hnode]
      rfl
  case link =>
      intro budget R name rest e target hfind hnode ih
      rw [walk_down_of_link_succ hfind hnode,
        walk_down_of_link_succ (hext.lookup _ _ _ hfind) hnode]
      exact ih

/-- A larger tree keeps every walk that arrives. -/
theorem Extends.walk {T' : Tree ν} (hext : T.Extends T') {budget : Nat} {s : Spot ν}
    {moves : List (Move ν)} {r : Nat × Spot ν} (h : T.walk budget s moves = .ok r) :
    T'.walk budget s moves = .ok r := by
  have hwalk := hext.walk_continues budget s moves
  rw [h] at hwalk
  exact hwalk

/-- Where a walk misses a name, a larger tree may let it go on from there. -/
theorem Extends.walk_of_missing {T' : Tree ν} (hext : T.Extends T') {budget : Nat} {s : Spot ν}
    {moves rest : List (Move ν)} {R : List ν} {name : ν}
    (h : T.walk budget s moves = .error (.missing R name rest)) :
    T.lookup R name = none ∧
      ∃ left, T'.walk budget s moves = T'.walk left (.dir R) (.down name :: rest) := by
  have hwalk := hext.walk_continues budget s moves
  rw [h] at hwalk
  exact hwalk

end Extension

section Update

/-- The tree with one more entry, in a directory that is there, under a new name. -/
def add (e : Entry ν) (hdir : T.IsDir e.dir) (hnew : T.lookup e.dir e.name = none) : Tree ν where
  entries := e :: T.entries
  fold := T.fold
  distinct := by
    refine List.pairwise_cons.mpr ⟨?_, T.distinct⟩
    intro e' hmem hdir' hname
    have hnone := List.find?_eq_none.mp hnew e' hmem
    simp [hdir', hname] at hnone
  housed := by
    have hkeep : ∀ R, IsDirIn T.entries R → IsDirIn (e :: T.entries) R := by
      intro R hR
      cases hR with
      | inl hroot => exact .inl hroot
      | inr h =>
          obtain ⟨p, hmem, hp⟩ := h
          exact .inr ⟨p, List.mem_cons_of_mem _ hmem, hp⟩
    intro e' hmem
    cases List.mem_cons.mp hmem with
    | inl heq => exact heq ▸ hkeep _ hdir
    | inr hmem => exact hkeep _ (T.housed e' hmem)

/-- The tree without an entry that nothing stands in. -/
def remove (e : Entry ν) (hempty : ∀ e' ∈ T.entries, e'.dir ≠ e.path) : Tree ν where
  entries := T.entries.filter (· ≠ e)
  fold := T.fold
  distinct := T.distinct.filter _
  housed := by
    intro e' hmem'
    obtain ⟨hmem, -⟩ := List.mem_filter.mp hmem'
    cases T.housed e' hmem with
    | inl hroot => exact .inl hroot
    | inr h =>
        obtain ⟨p, hp, hnode, hpath⟩ := h
        have hne : p ≠ e := fun heq => hempty e' hmem (heq ▸ hpath.symm)
        exact .inr ⟨p, List.mem_filter.mpr ⟨hp, by simpa using hne⟩, hnode, hpath⟩

variable {T}

theorem lookup_add {e : Entry ν} (hdir : T.IsDir e.dir) (hnew : T.lookup e.dir e.name = none)
    (R : List ν) (name : ν) :
    (T.add e hdir hnew).lookup R name =
      if e.dir = R ∧ T.fold e.name = T.fold name then some e else T.lookup R name := by
  by_cases h : e.dir = R ∧ T.fold e.name = T.fold name
  · rw [if_pos h]
    exact List.find?_cons_of_pos (decide_eq_true h)
  · rw [if_neg h]
    exact List.find?_cons_of_neg (fun hd => h (of_decide_eq_true hd))

theorem lookup_add_self {e : Entry ν} (hdir : T.IsDir e.dir)
    (hnew : T.lookup e.dir e.name = none) :
    (T.add e hdir hnew).lookup e.dir e.name = some e := by
  rw [lookup_add, if_pos ⟨rfl, rfl⟩]

/-- A name folds like the new entry's name only where nothing was found before. -/
theorem extends_add {e : Entry ν} (hdir : T.IsDir e.dir) (hnew : T.lookup e.dir e.name = none) :
    T.Extends (T.add e hdir hnew) where
  isDir R hR := by
    cases hR with
    | inl hroot => exact .inl hroot
    | inr h =>
        obtain ⟨p, hmem, hp⟩ := h
        exact .inr ⟨p, List.mem_cons_of_mem _ hmem, hp⟩
  lookup R name e' h := by
    rw [lookup_add, if_neg]
    · exact h
    · rintro ⟨rfl, hname⟩
      obtain ⟨hmem, hdir', hname'⟩ := lookup_eq_some_iff.mp h
      have hnone := List.find?_eq_none.mp hnew e' hmem
      simp [hdir', hname', hname] at hnone

/-- Taking back a new entry gives the tree as it was. -/
theorem remove_add {e : Entry ν} (hdir : T.IsDir e.dir) (hnew : T.lookup e.dir e.name = none)
    (hempty : ∀ e' ∈ (T.add e hdir hnew).entries, e'.dir ≠ e.path) :
    (T.add e hdir hnew).remove e hempty = T := by
  have hnot : e ∉ T.entries := by
    intro hmem
    rw [lookup_self hmem] at hnew
    cases hnew
  have hentries : (e :: T.entries).filter (· ≠ e) = T.entries := by
    rw [List.filter_cons_of_neg (by simp), List.filter_eq_self]
    intro e' hmem
    exact decide_eq_true (fun heq => hnot (heq ▸ hmem))
  cases T
  simp only [remove, add]
  congr

end Update

end Tree

end FileTree
