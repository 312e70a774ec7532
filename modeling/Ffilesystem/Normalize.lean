import Ffilesystem.Library.Place
import Ffilesystem.Library.Scan
import Ffilesystem.Platform

/-!
# Lexical normalization in the C backend

`normal` splits the path at its slashes, keeps a stack of components, and joins
the stack again. The loop below is the source's scanner with its positions; it
is proved once to fold the stack step over the pieces of the string.

The meaning of a path is the `Lexical.Place` that its components walk to.
`render` writes the one string in normal form that has a given meaning, and
`normal_eq_render` says that this is what the scanner, the stack and the final
fix-ups compute together. Uniqueness of normal forms and idempotence are then
facts about `render`, not about loops.
-/

namespace Ffilesystem

def dot : Str := ['.']
def dotdot : Str := ['.', '.']

/-- What the loop of `fs_normal_split` does with one part. The test of
`path.front()` is on the path as given, not on its converted copy. -/
def fsNormalPush (path : Str) (parts : List Str) (part : Str) : List Str :=
  if part = [] ∨ part = dot then parts
  else if part = dotdot then
    if parts ≠ [] ∧ parts.getLast? ≠ some dotdot then parts.dropLast
    else if path.head? ≠ some '/' then parts ++ [part]
    else parts
  else parts ++ [part]

def fsNormalSplitLoop (path p : Str) (start : Nat) (parts : List Str) : List Str :=
  if start < p.length then
    let stop := (Scan.find p '/' start).getD p.length
    fsNormalSplitLoop path p (stop + 1)
      (fsNormalPush path parts (Scan.substr p start (stop - start)))
  else parts
termination_by p.length - start
decreasing_by
  have := Scan.le_getD_find (s := p) (c := '/') (n := p.length) (Nat.le_of_lt ‹_›)
  omega

def fsNormalSplit (path p : Str) : List Str := fsNormalSplitLoop path p 0 []

/-- The last lines of `normal`, shared by both backends: one trailing separator
goes unless it belongs to a drive root, and nothing at all becomes a dot. -/
def normalEnd (pl : Platform) (r : Str) : Str :=
  let isWindowsDriveRoot :=
    pl.isWindows && r.length == 3 && r[1]? == some ':' && r[2]? == some '/'
  if 1 < r.length then
    if r.getLast?.any pl.isFileSeparator && !isWindowsDriveRoot then r.dropLast else r
  else if r.isEmpty then r ++ ['.']
  else r

/-- `normal` of the C backend. -/
def normal (pl : Platform) (path : Str) : Str :=
  if path.isEmpty then dot
  else
    let p := asPosix pl path
    let parts := fsNormalSplit path p
    let r := if path.head?.any pl.isFileSeparator then ['/'] else []
    normalEnd pl (parts.foldl (fun r part => r ++ part ++ ['/']) r)

/-- The loop of the two splitters: nonempty pieces between separators, the last
one taken up to the end of the string. -/
def splitLoop (sep : Char) (p : Str) (start : Nat) (parts : List Str) : List Str :=
  if start < p.length then
    match _hfind : Scan.find p sep start with
    | none => parts ++ [p.drop start]
    | some stop =>
        splitLoop sep p (stop + 1)
          (if stop ≠ start then parts ++ [Scan.substr p start (stop - start)] else parts)
  else parts
termination_by p.length - start
decreasing_by
  have := Scan.le_of_find _hfind
  omega

def splitFilesep (pl : Platform) (path : Str) : List Str :=
  if path.isEmpty then [] else splitLoop '/' (asPosix pl path) 0 []

def splitPathsep (pl : Platform) (path : Str) : List Str :=
  splitLoop pl.pathSeparator path 0 []

section Meaning

/-- A component that a walk can go down to. -/
def IsName (s : Str) : Prop := s ≠ [] ∧ s ≠ dot ∧ s ≠ dotdot ∧ '/' ∉ s

instance : DecidablePred IsName := fun s => by
  unfold IsName
  infer_instance

abbrev Name := { s : Str // IsName s }

/-- The move a component stands for. Besides names only `".."` moves at all. -/
def moveOf (component : Str) : Lexical.Move Name :=
  if h : IsName component then .down ⟨component, h⟩
  else if component = dotdot then .up
  else .stay

def textOf : Lexical.Move Name → Str
  | .stay => dot
  | .up => dotdot
  | .down n => n.1

/-- Whether a path starts with a slash. -/
def isRooted (path : Str) : Bool := path.head? == some '/'

/-- The lexical meaning of a path: the place its components walk to. -/
def place (path : Str) : Lexical.Place Name :=
  (Lexical.Place.start (isRooted path)).walk ((Scan.components '/' path).map moveOf)

@[simp] theorem place_rooted (path : Str) : (place path).rooted = isRooted path := by
  simp [place]

/-- The components of a place, `".."` for each step of its climb. -/
def parts (m : Lexical.Place Name) : List Str := m.moves.map textOf

/-- The path in normal form with a given meaning. -/
def render (m : Lexical.Place Name) : Str :=
  if m.rooted then '/' :: ['/'].intercalate (parts m)
  else if parts m = [] then dot
  else ['/'].intercalate (parts m)

end Meaning

section Scanner

@[simp] theorem fsNormalPush_nil (path : Str) (parts : List Str) :
    fsNormalPush path parts [] = parts := by
  simp [fsNormalPush]

/-- The scanner folds its stack step over all pieces between slashes. A start
past the end of the string leaves one empty piece, which the step ignores. -/
theorem fsNormalSplitLoop_eq (path p : Str) (start : Nat) (parts : List Str) :
    fsNormalSplitLoop path p start parts =
      ((p.drop start).splitOn '/').foldl (fsNormalPush path) parts := by
  fun_induction fsNormalSplitLoop path p start parts with
  | case1 start parts hlt stop ih =>
      rw [ih]
      cases hfind : Scan.find p '/' start with
      | none =>
          have hstop : stop = p.length := by simp [stop, hfind]
          rw [Scan.splitOn_drop_of_find_none hfind, hstop, Scan.substr_to_end,
            List.drop_of_length_le (Nat.le_succ p.length)]
          simp
      | some i =>
          have hstop : stop = i := by simp [stop, hfind]
          rw [Scan.splitOn_drop_of_find_some hfind, hstop, List.foldl_cons]
  | case2 start parts hge =>
      rw [List.drop_of_length_le (Nat.le_of_not_lt hge)]
      simp

theorem foldl_fsNormalPush_filter (path : Str) (pieces parts : List (Str)) :
    pieces.foldl (fsNormalPush path) parts =
      (pieces.filter (· ≠ [])).foldl (fsNormalPush path) parts := by
  induction pieces generalizing parts with
  | nil => rfl
  | cons piece pieces ih =>
      by_cases h : piece = []
      · simp [h, ih]
      · simp [h, ih]

theorem fsNormalSplit_eq (path p : Str) :
    fsNormalSplit path p = (Scan.components '/' p).foldl (fsNormalPush path) [] := by
  rw [fsNormalSplit, fsNormalSplitLoop_eq, List.drop_zero, foldl_fsNormalPush_filter,
    Scan.components]

/-- The splitters' loop appends the nonempty pieces of the rest of the string. -/
theorem splitLoop_eq (sep : Char) (p : Str) (start : Nat) (parts : List Str) :
    splitLoop sep p start parts = parts ++ Scan.components sep (p.drop start) := by
  fun_induction splitLoop sep p start parts with
  | case1 start parts hlt hfind =>
      have hne : p.drop start ≠ [] := by simpa using hlt
      rw [Scan.components_of_not_mem hne (Scan.find_eq_none_iff.mp hfind)]
  | case2 start parts hlt stop hfind ih =>
      obtain ⟨hle, hstop, _⟩ := Scan.find_eq_some hfind
      simp only [dite_eq_ite] at ih
      rw [ih, Scan.components, Scan.components, Scan.splitOn_drop_of_find_some hfind]
      have hnil : Scan.substr p start (stop - start) = [] ↔ stop = start := by
        rw [Scan.substr, List.take_eq_nil_iff, List.drop_eq_nil_iff]
        omega
      by_cases h : stop = start
      · simp [h, Scan.substr]
      · simp [h, hnil.not.mpr h]
  | case3 start parts hge =>
      rw [List.drop_of_length_le (Nat.le_of_not_lt hge)]
      simp

theorem splitFilesep_eq (pl : Platform) (path : Str) :
    splitFilesep pl path = Scan.components '/' (asPosix pl path) := by
  cases path with
  | nil => simp [splitFilesep, asPosix]
  | cons c rest => simp [splitFilesep, splitLoop_eq]

theorem splitPathsep_eq (pl : Platform) (path : Str) :
    splitPathsep pl path = Scan.components pl.pathSeparator path := by
  simp [splitPathsep, splitLoop_eq]

end Scanner

section Stack

open Lexical

@[simp] theorem moveOf_name (n : Name) : moveOf n.1 = .down n := by
  simp [moveOf, n.2]

theorem not_isName_dotdot : ¬ IsName dotdot := by decide

@[simp] theorem moveOf_dotdot : moveOf dotdot = .up := by
  simp [moveOf, not_isName_dotdot]

theorem moveOf_stay {s : Str} (h : s = [] ∨ s = dot) : moveOf s = .stay := by
  rcases h with rfl | rfl <;> decide

theorem moveOf_of_isName {s : Str} (h : IsName s) : moveOf s = .down ⟨s, h⟩ := by
  simp [moveOf, h]

/-- What a piece without a slash can be. -/
theorem piece_cases {s : Str} (h : '/' ∉ s) :
    (s = [] ∨ s = dot) ∨ s = dotdot ∨ IsName s := by
  by_cases h1 : s = [] <;> by_cases h2 : s = dot <;> by_cases h3 : s = dotdot <;>
    simp_all [IsName]

theorem moveOf_textOf {move : Move Name} (h : move ≠ .stay) : moveOf (textOf move) = move := by
  cases move with
  | stay => exact absurd rfl h
  | up => exact moveOf_dotdot
  | down n => exact moveOf_name n

theorem parts_eq (m : Place Name) :
    parts m = List.replicate m.ups dotdot ++ m.names.map Subtype.val := by
  simp only [parts, Place.moves, List.map_append, List.map_replicate, List.map_map]
  rfl

@[simp] theorem parts_start (rooted : Bool) : parts (Place.start rooted) = [] := by
  simp [parts_eq]

theorem map_moveOf_parts (m : Place Name) : (parts m).map moveOf = m.moves := by
  rw [parts, List.map_map]
  refine List.map_congr_left (fun move hmove => ?_) |>.trans (List.map_id _)
  exact moveOf_textOf (fun h => m.stay_not_mem_moves (h ▸ hmove))

theorem of_mem_parts {m : Place Name} {s : Str} (h : s ∈ parts m) :
    s ≠ [] ∧ s ≠ dot ∧ '/' ∉ s := by
  rw [parts_eq, List.mem_append, List.mem_replicate, List.mem_map] at h
  rcases h with ⟨_, rfl⟩ | ⟨n, _, rfl⟩
  · decide
  · exact ⟨n.2.1, n.2.2.1, n.2.2.2.2⟩

/-- The stack step of the source is the step of the lexical walk. -/
theorem fsNormalPush_parts {path : Str} {m : Place Name} (hroot : m.rooted = isRooted path)
    {piece : Str} (hpiece : '/' ∉ piece) :
    fsNormalPush path (parts m) piece = parts (m.step (moveOf piece)) := by
  rcases piece_cases hpiece with h | rfl | h
  · rw [moveOf_stay h, Place.step_stay, fsNormalPush, if_pos h]
  · rw [moveOf_dotdot, fsNormalPush, if_neg (by decide), if_pos rfl]
    by_cases hnames : m.names = []
    · -- only `".."` is left on the stack: the walk climbs, or stays at its root
      have hlast : ¬ (parts m ≠ [] ∧ (parts m).getLast? ≠ some dotdot) := by
        rw [parts_eq, hnames]
        cases m.ups with
        | zero => simp
        | succ k => simp [List.getLast?_replicate]
      rw [if_neg hlast, Place.step_up_of_names_nil hnames]
      cases hr : m.rooted with
      | true =>
          have hhead : path.head? = some '/' := by simpa [isRooted, hr] using hroot.symm
          rw [if_neg (by simp [hhead]), Place.climb_of_rooted hr]
      | false =>
          have hhead : path.head? ≠ some '/' := by simpa [isRooted, hr] using hroot.symm
          rw [if_pos hhead, parts_eq, parts_eq, Place.climb_ups_of_not_rooted hr,
            Place.climb_names, hnames]
          simp [List.replicate_succ']
    · obtain ⟨names, n, hcat⟩ := (List.eq_nil_or_concat' m.names).resolve_left hnames
      have hsplit : parts m = (List.replicate m.ups dotdot ++ names.map Subtype.val) ++ [n.1] := by
        rw [parts_eq, hcat]
        simp
      rw [if_pos (by simp [hsplit, n.2.2.2.1]), Place.step_up_of_names_ne_nil hnames, hsplit]
      simp [parts_eq, hcat]
  · rw [moveOf_of_isName h, fsNormalPush,
      if_neg (by rintro (rfl | rfl); exacts [h.1 rfl, h.2.1 rfl]),
      if_neg h.2.2.1]
    simp [parts_eq, Place.step]

theorem foldl_fsNormalPush_parts (path : Str) {pieces : List Str}
    (hpieces : ∀ piece ∈ pieces, '/' ∉ piece) {m : Place Name} (hroot : m.rooted = isRooted path) :
    pieces.foldl (fsNormalPush path) (parts m) = parts (m.walk (pieces.map moveOf)) := by
  induction pieces generalizing m with
  | nil => rfl
  | cons piece pieces ih =>
      rw [List.foldl_cons, fsNormalPush_parts hroot (hpieces piece List.mem_cons_self),
        ih (fun p hp => hpieces p (List.mem_cons_of_mem _ hp)) (by rw [Place.step_rooted, hroot])]
      rfl

/-- The component stack holds the components of the path's meaning. -/
theorem fsNormalSplit_self (path : Str) : fsNormalSplit path path = parts (place path) := by
  have h := foldl_fsNormalPush_parts path
    (fun piece (hp : piece ∈ Scan.components '/' path) => (Scan.of_mem_components hp).2)
    (Place.start_rooted (isRooted path))
  rw [parts_start] at h
  rw [fsNormalSplit_eq, h, place]

end Stack

section NormalForm

open Lexical

theorem normalEnd_append_slash {s : Str} (h : s ≠ []) : normalEnd .posix (s ++ ['/']) = s := by
  have hlen : 1 < (s ++ ['/']).length := by
    have := List.length_pos_iff.mpr h
    simp only [List.length_append, List.length_singleton]
    omega
  rw [normalEnd, if_pos hlen]
  simp

theorem normalEnd_of_getLast {s : Str} (hne : s ≠ []) (h : s.getLast? ≠ some '/') :
    normalEnd .posix s = s := by
  simp [normalEnd, Platform.any_isFileSeparator_posix, h, hne]

/-- The meaning of a place that is its own start has no components. -/
theorem eq_start_of_parts_nil {m : Place Name} (h : parts m = []) :
    m = Place.start m.rooted := by
  refine Place.moves_injective rfl ?_
  rw [← map_moveOf_parts, ← map_moveOf_parts, h, parts_start]

theorem parts_ok (m : Place Name) : ∀ s ∈ parts m, s ≠ [] ∧ '/' ∉ s :=
  fun _ hs => ⟨(of_mem_parts hs).1, (of_mem_parts hs).2.2⟩

theorem head?_intercalate_parts (m : Place Name) :
    (['/'].intercalate (parts m)).head? ≠ some '/' := by
  cases hparts : parts m with
  | nil => simp [List.intercalate]
  | cons s rest =>
      obtain ⟨hne, hfree⟩ := parts_ok m s (hparts ▸ List.mem_cons_self)
      rw [Scan.head?_intercalate hne]
      exact fun hhead => hfree (List.mem_of_head? hhead)

theorem intercalate_parts_ne_nil {m : Place Name} (h : parts m ≠ []) :
    ['/'].intercalate (parts m) ≠ [] := by
  intro hnil
  have hback := Scan.components_intercalate (parts_ok m)
  rw [hnil, Scan.components_nil] at hback
  exact h hback.symm

/-- The rebuilding loop and the final fix-ups write the normal form of the stack. -/
theorem normalEnd_rebuild (m : Place Name) :
    normalEnd .posix ((parts m).foldl (fun r part => r ++ part ++ ['/'])
      (if m.rooted then ['/'] else [])) = render m := by
  by_cases hparts : parts m = []
  · cases hroot : m.rooted <;> simp [render, hparts, hroot, normalEnd, dot, List.intercalate]
  · rw [Scan.foldl_append_sep hparts]
    cases hroot : m.rooted with
    | true =>
        simp only [render, hroot, if_true]
        exact normalEnd_append_slash (List.cons_ne_nil _ _)
    | false =>
        simp only [render, hroot, Bool.false_eq_true, if_false, hparts, List.nil_append]
        exact normalEnd_append_slash (intercalate_parts_ne_nil hparts)

/-- `normal` computes the normal form of the path's meaning. -/
theorem normal_eq_render (path : Str) : normal .posix path = render (place path) := by
  cases path with
  | nil => rfl
  | cons c rest =>
      rw [normal, if_neg (by simp)]
      have hroot : (place (c :: rest)).rooted = (c == '/') := by
        simp [place, isRooted]
      simp only [asPosix_posix, fsNormalSplit_self, List.head?_cons, Option.any_some,
        Platform.isFileSeparator_posix, ← hroot]
      exact normalEnd_rebuild (place (c :: rest))

theorem render_ne_nil (m : Place Name) : render m ≠ [] := by
  rw [render]
  split
  · exact List.cons_ne_nil _ _
  · split
    · exact List.cons_ne_nil _ _
    · rename_i hparts
      exact intercalate_parts_ne_nil hparts

/-- Reading a normal form back gives the meaning it was written for. -/
theorem place_render (m : Place Name) : place (render m) = m := by
  have hback : ((parts m).map moveOf) = m.moves := map_moveOf_parts m
  cases hroot : m.rooted with
  | true =>
      have hrender : render m = '/' :: ['/'].intercalate (parts m) := by simp [render, hroot]
      rw [place, hrender, Scan.components_cons_self, Scan.components_intercalate (parts_ok m),
        hback]
      simpa [isRooted, hroot] using m.walk_moves
  | false =>
      by_cases hparts : parts m = []
      · rw [eq_start_of_parts_nil hparts, hroot]
        rfl
      · have hrender : render m = ['/'].intercalate (parts m) := by simp [render, hroot, hparts]
        have hrooted : isRooted (['/'].intercalate (parts m)) = false := by
          simpa [isRooted] using head?_intercalate_parts m
        rw [place, hrender, hrooted, Scan.components_intercalate (parts_ok m), hback]
        simpa [hroot] using m.walk_moves

theorem render_injective : Function.Injective render := fun m m' h => by
  rw [← place_render m, ← place_render m', h]

@[simp] theorem place_normal (path : Str) : place (normal .posix path) = place path := by
  rw [normal_eq_render, place_render]

theorem normal_eq_normal_iff (p q : Str) :
    normal .posix p = normal .posix q ↔ place p = place q := by
  rw [normal_eq_render, normal_eq_render, render_injective.eq_iff]

/-- The strings that `normal` may return: `"."`, `"/"`, or components joined by
single slashes with every `".."` in front, and none at all under a root. -/
def IsNormalForm (r : Str) : Prop :=
  r = dot ∨ r = ['/'] ∨
    ∃ (rooted : Bool) (ups : Nat) (names : List Str),
      List.replicate ups dotdot ++ names ≠ [] ∧ (rooted = true → ups = 0) ∧
      (∀ n ∈ names, n ≠ [] ∧ n ≠ dot ∧ n ≠ dotdot ∧ '/' ∉ n) ∧
      r = (if rooted then ['/'] else []) ++
        ['/'].intercalate (List.replicate ups dotdot ++ names) ∧
      r.getLast? ≠ some '/'

theorem isNormalForm_render (m : Place Name) : IsNormalForm (render m) := by
  by_cases hparts : parts m = []
  · cases hroot : m.rooted <;> simp [IsNormalForm, render, hparts, hroot, List.intercalate]
  · refine .inr (.inr ⟨m.rooted, m.ups, m.names.map Subtype.val, ?_, m.ups_of_rooted, ?_, ?_, ?_⟩)
    · rwa [← parts_eq]
    · intro n hn
      obtain ⟨name, _, rfl⟩ := List.mem_map.mp hn
      exact name.2
    · rw [← parts_eq]
      cases hroot : m.rooted <;> simp [render, hroot, hparts]
    · have hlast := Scan.getLast?_intercalate_ne (parts_ok m)
      cases hroot : m.rooted with
      | true =>
          rw [render, if_pos hroot, List.getLast?_cons]
          obtain ⟨c, hc⟩ := Option.ne_none_iff_exists'.mp
            (List.getLast?_eq_none_iff.not.mpr (intercalate_parts_ne_nil hparts))
          simpa [hc] using hlast
      | false => rwa [render, if_neg (by simp [hroot]), if_neg hparts]

/-- Normalization keeps the lexical meaning, returns a normal form, and returns
the same one for two paths exactly when they mean the same. -/
theorem normal_canonical (p q : Str) :
    place (normal .posix p) = place p ∧ IsNormalForm (normal .posix p) ∧
      (normal .posix p = normal .posix q ↔ place p = place q) := by
  refine ⟨place_normal p, ?_, normal_eq_normal_iff p q⟩
  rw [normal_eq_render]
  exact isNormalForm_render (place p)

theorem normal_idempotent (p : Str) :
    normal .posix (normal .posix p) = normal .posix p :=
  (normal_eq_normal_iff _ _).mpr (place_normal p)

example : normal .posix "a/b/../../../c/../..".toList = "../..".toList := by
  rw [normal_eq_render]
  decide

end NormalForm

end Ffilesystem
