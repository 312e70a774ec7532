import Ffilesystem.Join
import Ffilesystem.Library.FileTree
import Ffilesystem.Parent

/-!
# The file system as POSIX calls see it

The state of the system is a tree of entries, the contents of the regular files by
inode number, and the current directory. A file of the tree may also be a device, a
pipe or a socket. A path is a C string: nothing behind
its first null character is seen, and the empty path names nothing.

A slash at the end of a path demands a directory, as one more `"."` would.
Calls that follow the last link walk the whole path. Calls that act on a name
itself walk to the directory it stands in (`locate`).
-/

namespace Ffilesystem

open FileTree Lexical

inductive Errno
  | noent
  | notdir
  | loop
  | exist
  | isdir
  | notempty
  | busy
  | intr
  | acces
  | perm
  | nosys
  | opnotsupp
  | io
  | other (code : Nat)
  deriving DecidableEq, Repr

/-- A component that can be the name of a directory entry. -/
def IsFileName (s : Str) : Prop := IsName s ∧ '\x00' ∉ s

instance : DecidablePred IsFileName := fun s => by
  unfold IsFileName
  infer_instance

abbrev FileName := { s : Str // IsFileName s }

def entryMove (component : Str) : Move FileName :=
  if h : IsFileName component then .down ⟨component, h⟩
  else if component = dotdot then .up
  else .stay

/-- The moves that the components of a path stand for. -/
def trail (p : Str) : List (Move FileName) := (Scan.components '/' p).map entryMove

/-- What a slash at the end of a path adds to its trail. -/
def endMove (p : Str) : List (Move FileName) :=
  if p.getLast? = some '/' then [.stay] else []

def stopErrno : Stop FileName → Errno
  | .missing .. => .noent
  | .notDir => .notdir
  | .loop => .loop

structure System where
  tree : FileTree.Tree FileName
  /-- The content of a regular file, by its inode number. -/
  data : Nat → List UInt8
  /-- The inode numbers of devices, pipes and sockets, which have no content. -/
  specials : List Nat := []
  cwd : List FileName
  /-- How many links one path may lead through. -/
  maxLinks : Nat
  cwd_isDir : tree.IsDir cwd

/-- Two files, `a` with two bytes and `b` with one, in the root directory. -/
def twoFiles : System where
  tree :=
    { entries := [⟨[], ⟨['a'], by decide⟩, .file 0⟩, ⟨[], ⟨['b'], by decide⟩, .file 1⟩]
      fold := id
      distinct := by decide
      housed := by decide }
  data := fun ino => if ino = 0 then [1, 2] else [9]
  cwd := []
  maxLinks := 40
  cwd_isDir := .inl rfl

/-- The absolute path of a directory or of a file, without links and dots. -/
def absString (R : List FileName) : Str := '/' :: ['/'].intercalate (R.map Subtype.val)

section Paths

theorem entryMove_name (name : FileName) : entryMove name.1 = .down name := dif_pos name.2

@[simp] theorem trail_nil : trail [] = [] := by
  rw [trail, Scan.components_nil, List.map_nil]

@[simp] theorem trail_append_slash (a b : Str) : trail (a ++ '/' :: b) = trail a ++ trail b := by
  rw [trail, Scan.components_append_cons, List.map_append]
  rfl

theorem trail_name (name : FileName) : trail name.1 = [.down name] := by
  rw [trail, Scan.components_of_not_mem name.2.1.1 name.2.1.2.2.2, List.map_singleton,
    entryMove_name]

theorem endMove_name (name : FileName) : endMove name.1 = [] := by
  refine if_neg (fun hlast => ?_)
  exact name.2.1.2.2.2 (List.mem_of_getLast? hlast)

/-- The last component of a longer path decides about its end. -/
theorem endMove_append {a b : Str} (hb : b ≠ []) : endMove (a ++ b) = endMove b := by
  rw [endMove, endMove, List.getLast?_append_of_ne_nil _ hb]

theorem cStr_genericString (path : Str) :
    cStr (genericString path) = genericString (cStr path) := by
  by_cases hmem : '\x00' ∈ path
  · obtain ⟨front, back, rfl, hfront⟩ := List.eq_append_cons_of_mem hmem
    have hcut : genericString (front ++ '\x00' :: back) =
        genericString front ++ genericString ('\x00' :: back) :=
      Scan.squeeze_append front (by simp)
    have hhead : (genericString ('\x00' :: back)).head? = some '\x00' := Scan.head?_squeeze _
    obtain ⟨back', hback⟩ := List.head?_eq_some_iff.mp hhead
    have hnul : '\x00' ∉ genericString front := fun h => hfront (Scan.mem_squeeze.mp h)
    rw [hcut, hback, cStr_append_of_not_mem hnul, cStr_append_of_not_mem hfront, cStr_cons_nul,
      cStr_cons_nul, List.append_nil, List.append_nil]
  · have hnul : '\x00' ∉ genericString path := fun h => hmem (Scan.mem_squeeze.mp h)
    rw [cStr_of_not_mem hmem, cStr_of_not_mem hnul]

@[simp] theorem trail_genericString (path : Str) : trail (genericString path) = trail path := by
  rw [trail, genericString, Scan.components_squeeze, trail]

@[simp] theorem endMove_genericString (path : Str) :
    endMove (genericString path) = endMove path := by
  rw [endMove, genericString, Scan.getLast?_squeeze, endMove]

@[simp] theorem genericString_eq_nil_iff {path : Str} : genericString path = [] ↔ path = [] := by
  rw [← List.head?_eq_none_iff, genericString, Scan.head?_squeeze, List.head?_eq_none_iff]

end Paths

namespace System

variable (sys : System)

def origin (p : Str) : List FileName := if isRooted p then [] else sys.cwd

def walkFrom (p : Str) (moves : List (Move FileName)) :
    Except (Stop FileName) (Nat × Spot FileName) :=
  sys.tree.walk sys.maxLinks (.dir (sys.origin p)) moves

/-- `stat`, as far as it says which directory or file the path names. -/
def stat (path : Str) : Except Errno (Spot FileName) :=
  let p := cStr path
  if p = [] then .error .noent
  else
    match sys.walkFrom p (trail p ++ endMove p) with
    | .ok (_, spot) => .ok spot
    | .error stop => .error (stopErrno stop)

@[simp] theorem stat_genericString (path : Str) :
    sys.stat (genericString path) = sys.stat path := by
  simp only [stat, cStr_genericString, genericString_eq_nil_iff, walkFrom, origin,
    isRooted_genericString, trail_genericString, endMove_genericString]

/-- Both backends' joins name what the joined path names. -/
theorem stat_joinOf (b : Backend) (path other : Str) :
    sys.stat (joinOf b path other) = sys.stat (stdJoin path other) :=
  apply_joinOf sys.stat_genericString b path other

/-- The directory that the last component of a path stands in, and that
component. Links before it are followed. -/
def locate (path : Str) : Except Errno (List FileName × Move FileName) :=
  let p := cStr path
  if p = [] then .error .noent
  else
    match sys.walkFrom p (trail p).dropLast with
    | .ok (_, .dir R) => .ok (R, (trail p).getLast?.getD .stay)
    | .ok (_, .file ..) => .error .notdir
    | .error stop => .error (stopErrno stop)

/-- Whether an inode is that of a device, a pipe or a socket. -/
def isSpecial (ino : Nat) : Bool := sys.specials.contains ino

/-- The content of the regular file that a path names. -/
def readFile (path : Str) : Option (List UInt8) :=
  match sys.stat path with
  | .ok (.file _ _ ino) => if sys.isSpecial ino then none else some (sys.data ino)
  | _ => none

/-- `S_ISREG` of the mode that `stat` reports. -/
def isFile (path : Str) : Bool :=
  match sys.stat path with
  | .ok (.file _ _ ino) => !sys.isSpecial ino
  | _ => false

def isDirectory (path : Str) : Bool :=
  match sys.stat path with
  | .ok spot => spot.isDir
  | .error _ => false

/-- `realpath`, as `real_path` hands its result on. -/
def realPath (path : Str) : Str :=
  match sys.stat path with
  | .ok spot => absString spot.path
  | .error _ => []

def getCwd : Str := absString sys.cwd

/-- Whether two spots have the same device and inode number. -/
def sameInode : Spot FileName → Spot FileName → Bool
  | .dir R, .dir R' => R = R'
  | .file _ _ ino, .file _ _ ino' => ino = ino'
  | _, _ => false

/-- The result of `equivalent`, which is also false when a path names nothing. -/
def equivalent (path1 path2 : Str) : Bool :=
  match sys.stat path1, sys.stat path2 with
  | .ok spot1, .ok spot2 => sameInode spot1 spot2
  | _, _ => false

/-- The inode numbers in use. -/
def inodes : List Nat :=
  sys.tree.entries.filterMap (fun e => match e.node with
    | .file ino => some ino
    | _ => none) ++ sys.specials

/-- An inode number that is not in use. -/
def freshIno : Nat := sys.inodes.foldl (fun n ino => max n (ino + 1)) 0

/-- The system with one more entry. -/
def addEntry (e : Entry FileName) (hdir : sys.tree.IsDir e.dir)
    (hnew : sys.tree.lookup e.dir e.name = none) : System where
  tree := sys.tree.add e hdir hnew
  data := sys.data
  specials := sys.specials
  cwd := sys.cwd
  maxLinks := sys.maxLinks
  cwd_isDir := (Tree.extends_add hdir hnew).isDir _ sys.cwd_isDir

def withData (ino : Nat) (bytes : List UInt8) : System :=
  { sys with data := Function.update sys.data ino bytes }

/-- A new empty file under a name that is free. -/
def createFile (R : List FileName) (name : FileName) : Except Errno (System × Nat) :=
  if h : sys.tree.IsDir R ∧ sys.tree.lookup R name = none then
    .ok ((sys.addEntry ⟨R, name, .file sys.freshIno⟩ h.1 h.2).withData sys.freshIno [],
      sys.freshIno)
  else .error .noent

/-- `open` for writing with `O_CREAT`: the inode that is open, and the system
with a file created where the path names none. With `O_EXCL` the last component
is not followed and must not be there. -/
def openCreate (path : Str) (excl : Bool) : Except Errno (System × Nat) :=
  let p := cStr path
  if p = [] then .error .noent
  else if excl then
    match sys.locate path with
    | .ok (R, .down name) =>
        if endMove p ≠ [] then .error .isdir
        else if (sys.tree.lookup R name).isSome then .error .exist
        else sys.createFile R name
    | .ok _ => .error .exist
    | .error e => .error e
  else
    match sys.walkFrom p (trail p ++ endMove p) with
    | .ok (_, .file _ _ ino) => .ok (sys, ino)
    | .ok (_, .dir _) => .error .isdir
    | .error (.missing R name []) => sys.createFile R name
    | .error stop => .error (stopErrno stop)

/-- The system without an entry that nothing stands in. The state is one in which the
current directory is there: a call that would take it away is refused. -/
def removeEntry (e : Entry FileName) : Except Errno System :=
  if hempty : ∀ e' ∈ sys.tree.entries, e'.dir ≠ e.path then
    if hcwd : (sys.tree.remove e hempty).IsDir sys.cwd then
      .ok { sys with tree := sys.tree.remove e hempty, cwd_isDir := hcwd }
    else .error .busy
  else .error .notempty

/-- The path is a name of the current directory, and nothing stands in it. -/
def namesEmptyCwd (path : Str) : Bool :=
  match sys.locate path with
  | .ok (R, .down name) =>
      R ++ [name] = sys.cwd ∧ ∀ e ∈ sys.tree.entries, e.dir ≠ sys.cwd
  | _ => false

/-- `remove` of a file, of a link itself, or of an empty directory. -/
def removeCall (path : Str) : Except Errno System :=
  match sys.locate path with
  | .ok (R, .down name) =>
      match sys.tree.lookup R name with
      | some e =>
          if endMove (cStr path) ≠ [] ∧ e.node ≠ .dir then .error .notdir
          else sys.removeEntry e
      | none => .error .noent
  | .ok _ => .error .busy
  | .error e => .error e

/-- `mkdir`, which fails with `EEXIST` exactly when the name is there as any kind
of entry. The environment may refuse to make a name that is not there. -/
def mkdirCall (refuse : Str → Option { e : Errno // e ≠ .exist }) (path : Str) :
    Except Errno System :=
  match sys.locate path with
  | .ok (R, .down name) =>
      if h : sys.tree.IsDir R ∧ sys.tree.lookup R name = none then
        match refuse (cStr path) with
        | some e => .error e
        | none => .ok (sys.addEntry ⟨R, name, .dir⟩ h.1 h.2)
      else .error .exist
  | .ok _ => .error .exist
  | .error e => .error e

/-- The system with directories made in `R` for the moves down, up to the first
move that does not go down. -/
def addDirs (sys : System) : List FileName → List (Move FileName) → System
  | R, .down name :: rest =>
      if h : sys.tree.IsDir R ∧ sys.tree.lookup R name = none then
        (sys.addEntry ⟨R, name, .dir⟩ h.1 h.2).addDirs (R ++ [name]) rest
      else sys
  | _, _ => sys

section Resolution

variable {sys}

theorem stat_eq_ok {path : Str} {spot : Spot FileName} (h : sys.stat path = .ok spot) :
    cStr path ≠ [] ∧ ∃ left,
      sys.walkFrom (cStr path) (trail (cStr path) ++ endMove (cStr path)) = .ok (left, spot) := by
  simp only [stat] at h
  split at h
  · cases h
  · rename_i hne
    split at h
    · rename_i left spot' hwalk
      cases h
      exact ⟨hne, left, hwalk⟩
    · cases h

theorem stat_of_walkFrom {path : Str} (left : Nat) {spot : Spot FileName}
    (hne : cStr path ≠ [])
    (h : sys.walkFrom (cStr path) (trail (cStr path) ++ endMove (cStr path)) = .ok (left, spot)) :
    sys.stat path = .ok spot := by
  simp only [stat, if_neg hne, h]

theorem stat_of_walkFrom_error {path : Str} (stop : Stop FileName) (hne : cStr path ≠ [])
    (h : sys.walkFrom (cStr path) (trail (cStr path) ++ endMove (cStr path)) = .error stop) :
    sys.stat path = .error (stopErrno stop) := by
  simp only [stat, if_neg hne, h]

theorem origin_stands (p : Str) : sys.tree.Stands (.dir (sys.origin p)) := by
  show sys.tree.IsDir (sys.origin p)
  rw [origin]
  split
  · exact Tree.isDir_root
  · exact sys.cwd_isDir

/-- What a path names is there. -/
theorem stat_stands {path : Str} {spot : Spot FileName} (h : sys.stat path = .ok spot) :
    sys.tree.Stands spot := by
  obtain ⟨-, left, hwalk⟩ := stat_eq_ok h
  exact Tree.walk_stands (origin_stands (cStr path)) hwalk

/-- The slash at the end of a path changes nothing where the path leads to a
directory, and there is none where it leads to a file. -/
theorem walkFrom_trail_of_stat {path : Str} {spot : Spot FileName} (h : sys.stat path = .ok spot) :
    (∃ left, sys.walkFrom (cStr path) (trail (cStr path)) = .ok (left, spot)) ∧
      (endMove (cStr path) = [] ∨ ∃ R, spot = .dir R) := by
  obtain ⟨-, left, hwalk⟩ := stat_eq_ok h
  rw [endMove] at hwalk ⊢
  split at hwalk
  · obtain ⟨left', spot', hfront, hend⟩ := Tree.exists_walk_of_append hwalk
    cases spot' with
    | dir R =>
        rw [Tree.walk_stay_cons, Tree.walk_nil] at hend
        cases hend
        exact ⟨⟨left, hfront⟩, .inr ⟨R, rfl⟩⟩
    | file R name ino =>
        rw [Tree.walk_file_cons] at hend
        cases hend
  · rename_i hlast
    rw [List.append_nil] at hwalk
    exact ⟨⟨left, hwalk⟩, .inl (if_neg hlast)⟩

theorem endMove_of_stat_file {path : Str} {R : List FileName} {name : FileName} {ino : Nat}
    (h : sys.stat path = .ok (.file R name ino)) : endMove (cStr path) = [] := by
  apply (walkFrom_trail_of_stat h).2.resolve_right
  rintro ⟨R', hdir⟩
  cases hdir

theorem locate_eq_ok {path : Str} {R : List FileName} {last : Move FileName}
    (h : sys.locate path = .ok (R, last)) :
    cStr path ≠ [] ∧ last = (trail (cStr path)).getLast?.getD .stay ∧ ∃ left,
      sys.walkFrom (cStr path) (trail (cStr path)).dropLast = .ok (left, .dir R) := by
  simp only [locate] at h
  split at h
  · cases h
  · rename_i hne
    split at h
    · rename_i left R' hwalk
      cases h
      exact ⟨hne, rfl, left, hwalk⟩
    · cases h
    · cases h

/-- A located name is the last move of the trail. -/
theorem trail_of_locate {path : Str} {R : List FileName} {name : FileName}
    (h : sys.locate path = .ok (R, .down name)) :
    trail (cStr path) = (trail (cStr path)).dropLast ++ [.down name] := by
  obtain ⟨-, hlast, -⟩ := locate_eq_ok h
  cases hget : (trail (cStr path)).getLast? with
  | none =>
      rw [hget] at hlast
      cases hlast
  | some move =>
      rw [hget] at hlast
      cases hlast
      exact (List.dropLast_append_getLast? _ (Option.mem_def.mpr hget)).symm

end Resolution

section Growth

/-- Only new entries tell the trees apart, so every path keeps its meaning. -/
structure Grows (sys sys' : System) : Prop where
  tree : sys.tree.Extends sys'.tree
  specials_eq : sys'.specials = sys.specials
  cwd_eq : sys'.cwd = sys.cwd
  maxLinks_eq : sys'.maxLinks = sys.maxLinks

variable {sys}

theorem Grows.refl (sys : System) : sys.Grows sys := ⟨.refl _, rfl, rfl, rfl⟩

theorem Grows.trans {sys' sys'' : System} (h : sys.Grows sys') (h' : sys'.Grows sys'') :
    sys.Grows sys'' :=
  ⟨h.tree.trans h'.tree, h'.specials_eq.trans h.specials_eq, h'.cwd_eq.trans h.cwd_eq,
    h'.maxLinks_eq.trans h.maxLinks_eq⟩

theorem grows_withData (ino : Nat) (bytes : List UInt8) : sys.Grows (sys.withData ino bytes) :=
  ⟨.refl _, rfl, rfl, rfl⟩

theorem grows_addEntry {e : Entry FileName} (hdir : sys.tree.IsDir e.dir)
    (hnew : sys.tree.lookup e.dir e.name = none) : sys.Grows (sys.addEntry e hdir hnew) :=
  ⟨Tree.extends_add hdir hnew, rfl, rfl, rfl⟩

theorem Grows.origin_eq {sys' : System} (h : sys.Grows sys') (p : Str) :
    sys'.origin p = sys.origin p := by
  rw [origin, origin, h.cwd_eq]

theorem Grows.isSpecial_eq {sys' : System} (h : sys.Grows sys') (ino : Nat) :
    sys'.isSpecial ino = sys.isSpecial ino := by
  rw [isSpecial, isSpecial, h.specials_eq]

theorem Grows.walkFrom {sys' : System} (h : sys.Grows sys') {p : Str}
    {moves : List (Move FileName)} {r : Nat × Spot FileName}
    (hwalk : sys.walkFrom p moves = .ok r) : sys'.walkFrom p moves = .ok r := by
  rw [System.walkFrom, h.origin_eq, h.maxLinks_eq]
  exact h.tree.walk hwalk

theorem Grows.stat {sys' : System} (h : sys.Grows sys') {path : Str} {spot : Spot FileName}
    (hstat : sys.stat path = .ok spot) : sys'.stat path = .ok spot := by
  obtain ⟨hne, left, hwalk⟩ := stat_eq_ok hstat
  exact stat_of_walkFrom left hne (h.walkFrom hwalk)

theorem lt_foldl_max {inos : List Nat} {ino : Nat} (hmem : ino ∈ inos) (n : Nat) :
    ino < inos.foldl (fun n ino => max n (ino + 1)) n := by
  have hle : ∀ (inos : List Nat) (n : Nat), n ≤ inos.foldl (fun n ino => max n (ino + 1)) n := by
    intro inos
    induction inos with
    | nil => exact fun n => Nat.le_refl n
    | cons first inos ih => exact fun n => Nat.le_trans (Nat.le_max_left _ _) (ih _)
  induction inos generalizing n with
  | nil => cases hmem
  | cons first inos ih =>
      rw [List.foldl_cons]
      cases List.mem_cons.mp hmem with
      | inl heq => exact heq ▸ Nat.lt_of_lt_of_le (Nat.le_max_right n (ino + 1)) (hle _ _)
      | inr hrest => exact ih hrest _

theorem lt_freshIno {e : Entry FileName} {ino : Nat} (hmem : e ∈ sys.tree.entries)
    (hnode : e.node = .file ino) : ino < sys.freshIno := by
  apply lt_foldl_max
  exact List.mem_append_left _ (List.mem_filterMap.mpr ⟨e, hmem, by rw [hnode]⟩)

/-- A new file is a regular one. -/
theorem isSpecial_freshIno (sys : System) : sys.isSpecial sys.freshIno = false := by
  rw [isSpecial, Bool.eq_false_iff, ne_eq, List.contains_iff_mem]
  intro hmem
  have hlt : sys.freshIno < sys.freshIno := lt_foldl_max (List.mem_append_right _ hmem) 0
  exact Nat.lt_irrefl _ hlt

/-- The number of a new file belongs to no file that a path names. -/
theorem ne_freshIno_of_stat {path : Str} {R : List FileName} {name : FileName} {ino : Nat}
    (h : sys.stat path = .ok (.file R name ino)) : ino ≠ sys.freshIno :=
  Nat.ne_of_lt (lt_freshIno (e := ⟨R, name, .file ino⟩) (stat_stands h) rfl)

/-- What `createFile` does, when it does anything. -/
theorem createFile_cases {R : List FileName} {name : FileName} {sys' : System} {ino : Nat}
    (h : sys.createFile R name = .ok (sys', ino)) :
    ino = sys.freshIno ∧ sys.tree.lookup R name = none ∧ sys.Grows sys' ∧
      sys'.tree.lookup R name = some ⟨R, name, .file ino⟩ ∧
      sys'.data = Function.update sys.data ino [] := by
  rw [createFile] at h
  split at h
  · rename_i hfree
    cases h
    exact ⟨rfl, hfree.2, (grows_addEntry hfree.1 hfree.2).trans (grows_withData _ _),
      Tree.lookup_add_self hfree.1 hfree.2, rfl⟩
  · cases h

/-- A located name that is not there is where the walk of the whole path ends. -/
theorem walkFrom_of_locate {path : Str} {R : List FileName} {name : FileName}
    (hlocate : sys.locate path = .ok (R, .down name)) (hend : endMove (cStr path) = [])
    (hnone : sys.tree.lookup R name = none) :
    sys.walkFrom (cStr path) (trail (cStr path) ++ endMove (cStr path)) =
      .error (.missing R name []) := by
  obtain ⟨-, -, left, hwalk⟩ := locate_eq_ok hlocate
  rw [hend, List.append_nil, trail_of_locate hlocate, walkFrom, Tree.walk_append_of_ok hwalk,
    Tree.walk_down_of_none hnone]

/-- A file that is created where the walk of a path missed its last name is what
the path names from then on. -/
theorem createFile_of_missing {path : Str} {R : List FileName} {name : FileName} {sys' : System}
    {ino : Nat} (hne : cStr path ≠ [])
    (hwalk : sys.walkFrom (cStr path) (trail (cStr path) ++ endMove (cStr path)) =
      .error (.missing R name []))
    (h : sys.createFile R name = .ok (sys', ino)) :
    ino = sys.freshIno ∧ sys.stat path = .error .noent ∧ sys.Grows sys' ∧
      (∃ R name, sys'.stat path = .ok (.file R name ino)) ∧
      sys'.data = Function.update sys.data ino [] := by
  obtain ⟨hino, -, hgrows, hfind, hdata⟩ := createFile_cases h
  obtain ⟨-, left, hwalk'⟩ := hgrows.tree.walk_of_missing hwalk
  refine ⟨hino, stat_of_walkFrom_error _ hne hwalk, hgrows, ⟨R, name, ?_⟩, hdata⟩
  apply stat_of_walkFrom left hne
  rw [walkFrom, hgrows.origin_eq, hgrows.maxLinks_eq, hwalk', Tree.walk_down_of_file hfind rfl,
    Tree.walk_nil]

/-- What `open` with `O_CREAT` does, when it succeeds: it opens the file that
the path names, or it makes a new file that the path then names. -/
theorem openCreate_cases {path : Str} {excl : Bool} {sys' : System} {ino : Nat}
    (h : sys.openCreate path excl = .ok (sys', ino)) :
    (excl = false ∧ sys' = sys ∧ ∃ R name, sys.stat path = .ok (.file R name ino)) ∨
      (ino = sys.freshIno ∧ sys.stat path = .error .noent ∧ sys.Grows sys' ∧
        (∃ R name, sys'.stat path = .ok (.file R name ino)) ∧
        sys'.data = Function.update sys.data ino []) := by
  simp only [openCreate] at h
  split at h
  · cases h
  rename_i hne
  cases excl with
  | true =>
      rw [if_pos rfl] at h
      split at h
      · rename_i R name hlocate
        split at h
        · cases h
        rename_i hend
        split at h
        · cases h
        obtain ⟨-, hnone, -⟩ := createFile_cases h
        have hwalk := walkFrom_of_locate hlocate (Decidable.not_not.mp hend) hnone
        exact .inr (createFile_of_missing hne hwalk h)
      · cases h
      · cases h
  | false =>
      rw [if_neg (by decide)] at h
      split at h
      · rename_i left R name ino' hwalk
        cases h
        exact .inl ⟨rfl, rfl, R, name, stat_of_walkFrom left hne hwalk⟩
      · cases h
      · rename_i R name hwalk
        exact .inr (createFile_of_missing hne hwalk h)
      · cases h

end Growth

end System

end Ffilesystem
