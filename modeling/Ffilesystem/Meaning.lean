import Ffilesystem.Library.Shortening
import Ffilesystem.Mkdir
import Ffilesystem.Reassembly

/-!
# What a path names before and after it is rewritten

The lexical operations look at the text of a path alone. What a path names is
the system's business. The results here say when the two agree: `normal` keeps
what a path names where the walk follows no link, or no `".."` is in the path, and
`mkdir` of such a path makes the path itself; `parent` always names the directory
that the last component is looked up in; and joining paths is changing to one
directory after the other.

A path is walked with a budget of links. Two walks that differ in nothing but
the budget end alike, or the smaller budget was used up.
-/

namespace Ffilesystem

open FileTree Lexical

theorem isFileName_d : IsFileName ['d'] := by decide

theorem isFileName_f : IsFileName ['f'] := by decide

theorem isFileName_l : IsFileName ['l'] := by decide

/-- A directory `d` with a file `f` in it, and a link `l` to the directory. -/
def linkedDir : System where
  tree :=
    { entries := [⟨[], ⟨['d'], isFileName_d⟩, .dir⟩,
        ⟨[⟨['d'], isFileName_d⟩], ⟨['f'], isFileName_f⟩, .file 0⟩,
        ⟨[], ⟨['l'], isFileName_l⟩, .link ⟨false, [.down ⟨['d'], isFileName_d⟩]⟩⟩]
      fold := id
      distinct := by decide
      housed := by decide }
  data := fun _ => [7]
  cwd := []
  maxLinks := 40
  cwd_isDir := .inl rfl

def linkedDirFile : Spot FileName := .file [⟨['d'], isFileName_d⟩] ⟨['f'], isFileName_f⟩ 0

section Walks

variable {sys sys' : System}

/-- What a path names depends on where its walk ends, not on the links it may
still follow. -/
theorem stat_congr {path path' : Str} (hne : cStr path ≠ []) (hne' : cStr path' ≠ [])
    (h : (sys.walkFrom (cStr path) (trail (cStr path) ++ endMove (cStr path))).map Prod.snd =
      (sys'.walkFrom (cStr path') (trail (cStr path') ++ endMove (cStr path'))).map Prod.snd) :
    sys.stat path = sys'.stat path' := by
  cases hwalk : sys.walkFrom (cStr path) (trail (cStr path) ++ endMove (cStr path)) with
  | ok r =>
      cases hwalk' : sys'.walkFrom (cStr path') (trail (cStr path') ++ endMove (cStr path')) with
      | ok r' =>
          rw [hwalk, hwalk'] at h
          have hspot : r.2 = r'.2 := Except.ok.inj h
          rw [System.stat_of_walkFrom r.1 hne hwalk, System.stat_of_walkFrom r'.1 hne' hwalk',
            hspot]
      | error stop' =>
          rw [hwalk, hwalk'] at h
          cases h
  | error stop =>
      cases hwalk' : sys'.walkFrom (cStr path') (trail (cStr path') ++ endMove (cStr path')) with
      | ok r' =>
          rw [hwalk, hwalk'] at h
          cases h
      | error stop' =>
          rw [hwalk, hwalk'] at h
          obtain rfl : stop = stop' := Except.error.inj h
          rw [System.stat_of_walkFrom_error stop hne hwalk,
            System.stat_of_walkFrom_error stop hne' hwalk']

theorem isRooted_cStr {path : Str} (h : cStr path ≠ []) :
    isRooted (cStr path) = isRooted path := by
  cases path with
  | nil => rfl
  | cons c rest =>
      by_cases hc : c = '\x00'
      · exact absurd (by rw [hc, cStr_cons_nul]) h
      · rw [cStr_cons_of_ne hc]
        rfl

theorem trail_append_of_all {slashes : Str} (h : ∀ c ∈ slashes, c = '/') (p : Str) :
    trail (p ++ slashes) = trail p := by
  rw [trail, Ends.components_append_of_all h]
  rfl

end Walks

section Normal

theorem isFileName_x : IsFileName ['x'] := by decide

/-- The name of a place as the name of an entry, where it can be one. -/
def entryName (n : Name) : FileName :=
  if h : '\x00' ∉ n.1 then ⟨n.1, n.2, h⟩ else ⟨['x'], isFileName_x⟩

theorem entryMove_eq_map {component : Str} (h : '\x00' ∉ component) :
    entryMove component = (moveOf component).map entryName := by
  by_cases hname : IsName component
  · rw [moveOf_of_isName hname, entryMove, dif_pos ⟨hname, h⟩, Move.map, entryName, dif_pos h]
  · rw [entryMove, dif_neg (fun hfile => hname hfile.1), moveOf, dif_neg hname]
    split <;> rfl

theorem trail_eq_map {path : Str} (h : '\x00' ∉ path) :
    trail path = (movesOf path).map (Move.map entryName) := by
  rw [trail, movesOf, List.map_map]
  refine List.map_congr_left fun component hmem => ?_
  exact entryMove_eq_map fun hnul => h (Scan.mem_of_mem_components hmem hnul)

/-- The names of a place are components of the path. -/
theorem mem_components_of_mem_names {path : Str} {n : Name} (hn : n ∈ (place path).names) :
    n.1 ∈ Scan.components '/' path := by
  rcases Place.mem_names_walk hn with hstart | hmove
  · cases hstart
  · obtain ⟨component, hmem, heq⟩ := List.mem_map.mp hmove
    have hname : component = n.1 := by
      by_cases hcomp : IsName component
      · rw [moveOf_of_isName hcomp] at heq
        exact congrArg Subtype.val (Move.down.inj heq)
      · rw [moveOf, dif_neg hcomp] at heq
        split at heq <;> cases heq
    exact hname ▸ hmem

/-- A place holds no null character that the path does not hold. -/
theorem nul_not_mem_names {path : Str} (h : '\x00' ∉ path) :
    ∀ n ∈ (place path).names, '\x00' ∉ n.1 :=
  fun _ hn hnul => h (Scan.mem_of_mem_components (mem_components_of_mem_names hn) hnul)

theorem nul_not_mem_parts {m : Place Name} (h : ∀ n ∈ m.names, '\x00' ∉ n.1) :
    ∀ part ∈ parts m, '\x00' ∉ part := by
  intro part hpart
  rw [parts_eq, List.mem_append] at hpart
  rcases hpart with hup | hname
  · rw [List.eq_of_mem_replicate hup]
    decide
  · obtain ⟨n, hn, rfl⟩ := List.mem_map.mp hname
    exact h n hn

/-- The moves that the system reads from the components of a place. -/
theorem map_entryMove_parts {m : Place Name} (h : ∀ n ∈ m.names, '\x00' ∉ n.1) :
    (parts m).map entryMove = (m.map entryName).moves := by
  rw [Place.moves_map, ← map_moveOf_parts, List.map_map]
  exact List.map_congr_left fun component hmem =>
    entryMove_eq_map (nul_not_mem_parts h component hmem)

theorem nul_not_mem_render {m : Place Name} (h : ∀ n ∈ m.names, '\x00' ∉ n.1) :
    '\x00' ∉ render m := by
  have hjoin := Scan.not_mem_intercalate (c := '/') (by decide) (nul_not_mem_parts h)
  rw [render]
  split
  · rintro hmem
    exact hjoin ((List.mem_cons.mp hmem).resolve_left (by decide))
  · split
    · decide
    · exact hjoin

/-- The walk that a path in normal form stands for ends where the canonical walk
to its place does. -/
theorem walk_render {T : FileTree.Tree FileName} {m : Place Name}
    (h : ∀ n ∈ m.names, '\x00' ∉ n.1)
    {R : List FileName} {budget left : Nat} {spot : Spot FileName}
    (hwalk : T.walk budget (.dir R) (m.map entryName).moves = .ok (left, spot)) :
    T.walk budget (.dir R) (trail (render m) ++ endMove (render m)) = .ok (left, spot) := by
  by_cases hparts : parts m = []
  · -- the place itself: its text is a slash or a dot, and every such move stays
    have hmoves : (m.map entryName).moves = [] := by
      rw [← map_entryMove_parts h, hparts]
      rfl
    rw [hmoves, Tree.walk_nil] at hwalk
    rw [← hwalk, render, hparts]
    split
    · exact (Tree.walk_stay_cons budget R []).trans (Tree.walk_nil budget (.dir R))
    · exact (Tree.walk_stay_cons budget R []).trans (Tree.walk_nil budget (.dir R))
  · have hlast := Scan.getLast?_intercalate_ne (parts_ok m)
    have hne := intercalate_parts_ne_nil hparts
    have htrail : trail (['/'].intercalate (parts m)) = (m.map entryName).moves := by
      rw [trail, Scan.components_intercalate (parts_ok m), map_entryMove_parts h]
    have hend : endMove (['/'].intercalate (parts m)) = [] := if_neg hlast
    rw [render]
    split
    · have hcons := endMove_append (a := ['/']) hne
      rw [List.singleton_append] at hcons
      rw [trail_cons_slash, htrail, hcons, hend, List.append_nil, hwalk]
    · rw [htrail, hend, List.append_nil, hwalk]

/-- Where the canonical walk of a path arrives, its normal form leads. -/
theorem stat_normal_of_walk {sys : System} {path : Str} (hnul : '\x00' ∉ path)
    {left : Nat} {spot : Spot FileName}
    (hwalk : sys.walkFrom path ((Place.start (isRooted path)).walk (trail path)).moves =
      .ok (left, spot)) : sys.stat (normal .posix path) = .ok spot := by
  have hnames := nul_not_mem_names hnul
  have hmap : (Place.start (isRooted path)).walk (trail path) = (place path).map entryName := by
    rw [trail_eq_map hnul, ← Place.start_map entryName, Place.walk_map]
    rfl
  have hcstr : cStr (normal .posix path) = normal .posix path := by
    rw [normal_eq_render]
    exact cStr_of_not_mem (nul_not_mem_render hnames)
  have horigin : sys.origin (normal .posix path) = sys.origin path := by
    rw [System.origin, System.origin, isRooted_normal]
  apply System.stat_of_walkFrom left
  · rw [hcstr, normal_eq_render]
    exact render_ne_nil _
  · rw [hcstr, System.walkFrom, horigin, normal_eq_render]
    apply walk_render hnames
    rw [← hmap]
    exact hwalk

/-- The path names `spot`, and the walk to it follows no link. -/
def NamesDirectly (sys : System) (path : Str) (spot : Spot FileName) : Prop :=
  cStr path ≠ [] ∧
    sys.tree.walk 0 (.dir (sys.origin (cStr path))) (trail (cStr path) ++ endMove (cStr path)) =
      .ok (0, spot)

theorem NamesDirectly.stat_eq {sys : System} {path : Str} {spot : Spot FileName}
    (h : NamesDirectly sys path spot) : sys.stat path = .ok spot := by
  have hwalk := Tree.walk_add h.2 sys.maxLinks
  rw [Nat.zero_add] at hwalk
  exact System.stat_of_walkFrom _ h.1 hwalk

/-- What a path names its normal form names too, if the way there follows no link
or the path does not go up. -/
theorem stat_normal {sys : System} {path : Str} (hnul : '\x00' ∉ path) {spot : Spot FileName}
    (hstat : sys.stat path = .ok spot)
    (h : NamesDirectly sys path spot ∨ dotdot ∉ Scan.components '/' path) :
    sys.stat (normal .posix path) = .ok spot := by
  rcases h with hdirect | hup
  · obtain ⟨-, hwalk⟩ := hdirect
    rw [cStr_of_not_mem hnul] at hwalk
    obtain ⟨left, s, hfront, hend⟩ := Tree.exists_walk_of_append hwalk
    obtain rfl : left = 0 := Nat.le_zero.mp (Tree.walk_left_le hfront)
    obtain rfl : s = spot := by
      have hsame := (System.walkFrom_trail_of_stat hstat).1
      rw [cStr_of_not_mem hnul] at hsame
      obtain ⟨left, hleft⟩ := hsame
      exact Tree.walk_unique hfront hleft
    have hstart : isRooted path = true → sys.origin path = [] := fun hroot => if_pos hroot
    have hmoves := Tree.walk_moves_of_walk hstart hfront
    have hbudget := Tree.walk_add hmoves sys.maxLinks
    rw [Nat.zero_add] at hbudget
    exact stat_normal_of_walk hnul hbudget
  · have hmem : Move.up ∉ trail path := by
      intro hmem
      obtain ⟨component, hcomp, heq⟩ := List.mem_map.mp hmem
      rw [entryMove] at heq
      split at heq
      · cases heq
      · split at heq
        · rename_i hdots
          exact hup (hdots ▸ hcomp)
        · cases heq
    obtain ⟨left, hwalk⟩ := (System.walkFrom_trail_of_stat hstat).1
    rw [cStr_of_not_mem hnul] at hwalk
    refine stat_normal_of_walk hnul (?_ : sys.walkFrom path _ = .ok (left, spot))
    rw [Place.moves_walk_of_no_up _ hmem, Place.start_moves, List.nil_append]
    exact Tree.walk_filter_stay hwalk

theorem stat_normal_of_dots :
    linkedDir.stat (normal .posix "d/../d/./f".toList) = .ok linkedDirFile :=
  stat_normal (by decide) (by decide +kernel) (.inl ⟨by decide, by decide +kernel⟩)

end Normal

section Made

variable {sys : System} {path : Str}

theorem effective_eq_map {texts : List Str} (h : ∀ t ∈ texts, '\x00' ∉ t) :
    effective texts = texts.map entryMove := by
  induction texts with
  | nil => rfl
  | cons part rest ih =>
      rw [effective, if_neg (h part List.mem_cons_self), List.map_cons,
        ih fun t ht => h t (List.mem_cons_of_mem _ ht)]

/-- The normal form of an absolute path is the canonical walk of its trail. -/
theorem normalMoves_eq (hne : path ≠ []) (hnul : '\x00' ∉ absolute sys path) :
    normalMoves sys path = ((Place.start true).walk (trail (absolute sys path))).moves := by
  have hnames := nul_not_mem_names hnul
  have hroot : (place (absolute sys path)).rooted = true := by
    rw [place_rooted, isRooted_absolute sys hne]
  have hplace : (Place.start true).walk (trail (absolute sys path)) =
      (place (absolute sys path)).map entryName := by
    rw [trail_eq_map hnul, ← Place.start_map entryName, Place.walk_map, place_eq_walk,
      isRooted_absolute sys hne]
  rw [normalMoves, normal_eq_render, render, if_pos hroot, splitFilesep_eq, asPosix_posix,
    Scan.components_cons_self, Scan.components_intercalate (parts_ok _),
    effective_eq_map (nul_not_mem_parts hnames), map_entryMove_parts hnames, hplace]

/-- The walk of the absolute path starts with the names of the current directory. -/
theorem trail_absolute (sys : System) (hne : path ≠ []) :
    trail (absolute sys path) = (sys.origin path).map .down ++ trail path := by
  rw [System.origin]
  cases hroot : isRooted path with
  | true => rw [absolute_of_rooted hroot, if_pos rfl, List.map_nil, List.nil_append]
  | false =>
      rw [absolute_of_not_rooted hne hroot, trail_append_slash, System.getCwd, trail_absString,
        if_neg Bool.false_ne_true]

theorem nul_not_mem_absolute (sys : System) (hne : path ≠ []) (hnul : '\x00' ∉ path) :
    '\x00' ∉ absolute sys path := by
  cases hroot : isRooted path with
  | true => rwa [absolute_of_rooted hroot]
  | false =>
      rw [absolute_of_not_rooted hne hroot, List.mem_append, List.mem_cons, not_or, not_or]
      exact ⟨nul_not_mem_absString sys.cwd, by decide, hnul⟩

/-- The moves of a normal form go down to names only. -/
theorem exists_down_of_mem_normalMoves (hne : path ≠ []) (hnul : '\x00' ∉ path)
    {move : Move FileName} (hmem : move ∈ normalMoves sys path) : ∃ name, move = .down name := by
  rw [normalMoves_eq hne (nul_not_mem_absolute sys hne hnul)] at hmem
  cases move with
  | down name => exact ⟨name, rfl⟩
  | stay => exact absurd hmem (Place.stay_not_mem_moves _)
  | up => exact absurd hmem (Place.up_not_mem_moves_of_rooted (Place.walk_rooted _ _))

/-- What a normal form lacks leads to a directory once it is made. -/
theorem walk_normalMoves_addDirs {R : List FileName} {rest : List (Move FileName)} (hne : path ≠ [])
    (hnul : '\x00' ∉ path) (hlacks : sys.tree.Lacks sys.maxLinks (normalMoves sys path) R rest) :
    ∃ left Q, (sys.addDirs R rest).tree.walk sys.maxLinks (.dir []) (normalMoves sys path) =
      .ok (left, .dir Q) := by
  obtain ⟨first, name, more, left, hcut, rfl, hwalk, hnone⟩ := hlacks
  have hdown : ∀ move ∈ .down name :: more, ∃ n, move = .down n := fun move hmem =>
    exists_down_of_mem_normalMoves hne hnul (hcut ▸ List.mem_append_right first hmem)
  obtain ⟨Q, hmade⟩ := walk_addDirs hdown hwalk fun other heq => by
    rwa [← Move.down.inj (Option.some.inj heq)]
  rw [hcut]
  exact ⟨left, Q, hmade⟩

/-- A front that follows no link leads where its part of the normal form does. Behind it
the normal form only leaves out the moves that stay, if none goes up. -/
theorem normalMoves_of_front {front behind : List (Move FileName)} {D : List FileName}
    (hne : path ≠ []) (hnul : '\x00' ∉ path) (hsplit : trail path = front ++ behind)
    (hfront : sys.tree.walk 0 (.dir (sys.origin path)) front = .ok (0, .dir D))
    (hup : Move.up ∉ behind) :
    ∃ canon, normalMoves sys path = canon ++ behind.filter (· ≠ .stay) ∧
      sys.tree.walk 0 (.dir []) canon = .ok (0, .dir D) := by
  have hdir : sys.tree.IsDir ([] ++ sys.origin path) := System.origin_stands path
  refine ⟨((Place.start true).walk ((sys.origin path).map .down ++ front)).moves, ?_, ?_⟩
  · rw [normalMoves_eq hne (nul_not_mem_absolute sys hne hnul), trail_absolute sys hne, hsplit,
      ← List.append_assoc, Place.walk_append, Place.moves_walk_of_no_up _ hup]
  · refine Tree.walk_moves_of_walk (fun _ => rfl) ?_
    rw [Tree.walk_names hdir]
    exact hfront

/-- On a path that names nothing `mkdir` keeps its promise where nothing is in the way
of the normal form, if every `".."` comes before the first link and the first name
that is missing. -/
theorem makesDirectory_of_front {front behind : List (Move FileName)} {D : List FileName}
    {e : Errno} (hne : path ≠ []) (hnul : '\x00' ∉ path) (hsplit : trail path = front ++ behind)
    (hfront : sys.tree.walk 0 (.dir (sys.origin path)) front = .ok (0, .dir D))
    (hup : Move.up ∉ behind) (hstat : sys.stat path = .error e)
    (hfree : ¬ sys.tree.Occupied sys.maxLinks (normalMoves sys path)) :
    MakesDirectory sys path := by
  have hcstr : cStr path = path := cStr_of_not_mem hnul
  have hseen : cStr path ≠ [] := by rwa [hcstr]
  refine makesDirectory_of_vacant hne
    ⟨⟨e, (stat_absolute hseen).trans hstat⟩, hfree, fun R rest hlacks => ?_⟩
  rw [← isDirectory_addDirs_iff hlacks, isDirectory_eq_true_iff]
  have hgrows := grows_addDirs sys R rest
  have hlarger : ∀ {s moves}, sys.tree.walk 0 s moves = .ok (0, .dir D) →
      (sys.addDirs R rest).tree.walk sys.maxLinks s moves = .ok (sys.maxLinks, .dir D) := by
    intro s moves h
    have hbudget := Tree.walk_add h sys.maxLinks
    rw [Nat.zero_add] at hbudget
    exact hgrows.tree.walk hbudget
  obtain ⟨canon, hmoves, hcanon⟩ := normalMoves_of_front hne hnul hsplit hfront hup
  obtain ⟨left, Q, hmade⟩ := walk_normalMoves_addDirs hne hnul hlacks
  have hend : (behind ++ endMove path).filter (· ≠ .stay) = behind.filter (· ≠ .stay) := by
    rw [List.filter_append, endMove]
    split
    · exact List.append_nil _
    · exact List.append_nil _
  rw [hmoves, Tree.walk_append_of_ok (hlarger hcanon), ← hend] at hmade
  refine ⟨Q, System.stat_of_walkFrom left hseen ?_⟩
  rw [hcstr, hsplit, List.append_assoc, System.walkFrom, hgrows.origin_eq, hgrows.maxLinks_eq,
    Tree.walk_append_of_ok (hlarger hfront)]
  exact Tree.walk_of_filter_stay hmade

end Made

section Cwd

/-- `set_cwd`: `chdir` goes to a directory that may be searched. -/
def setCwd (denied : Bool) (sys : System) (path : Str) : Bool × System :=
  match hstat : sys.stat path with
  | .ok (.dir R) =>
      if denied then (false, sys)
      else (true, { sys with cwd := R, cwd_isDir := System.stat_stands hstat })
  | _ => (false, sys)

/-- What a successful change of directory does. -/
theorem setCwd_cases {denied : Bool} {sys sys' : System} {path : Str}
    (h : setCwd denied sys path = (true, sys')) :
    sys.stat path = .ok (.dir sys'.cwd) ∧ sys'.tree = sys.tree ∧ sys'.data = sys.data ∧
      sys'.maxLinks = sys.maxLinks := by
  rw [setCwd] at h
  split at h
  · rename_i R hstat
    split at h
    · cases h
    · cases h
      exact ⟨hstat, rfl, rfl, rfl⟩
  · cases h

/-- A run of changes of directory, all of which succeed. -/
inductive ChangesDir : System → List Str → System → Prop
  | nil (sys : System) : ChangesDir sys [] sys
  | cons {denied : Bool} {sys sys' sys'' : System} {dir : Str} {dirs : List Str}
      (first : setCwd denied sys dir = (true, sys')) (rest : ChangesDir sys' dirs sys'') :
      ChangesDir sys (dir :: dirs) sys''

variable {sys sys' : System}

theorem components_append_joinSep (dir : Str) (hne : dir ≠ []) (p : Str) :
    Scan.components '/' (dir ++ joinSep dir ++ p) =
      Scan.components '/' dir ++ Scan.components '/' p := by
  by_cases hlast : dir.getLast? = some '/'
  · obtain ⟨front, rfl⟩ := List.getLast?_eq_some_iff.mp hlast
    have hsep : joinSep (front ++ ['/']) = [] := by simp [joinSep]
    have hfront : Scan.components '/' (front ++ ['/']) = Scan.components '/' front := by
      rw [Scan.components_append_cons, Scan.components_nil, List.append_nil]
    rw [hsep, List.append_nil, List.append_assoc, List.singleton_append,
      Scan.components_append_cons, hfront]
  · have hsep : joinSep dir = ['/'] := by simp [joinSep, hne, hlast]
    rw [hsep, List.append_assoc, List.singleton_append, Scan.components_append_cons]

theorem trail_append_joinSep (dir : Str) (hne : dir ≠ []) (p : Str) :
    trail (dir ++ joinSep dir ++ p) = trail dir ++ trail p := by
  rw [trail, components_append_joinSep dir hne, List.map_append]
  rfl

theorem cStr_stdJoin_of_not_rooted {dir path : Str} (hnul : '\x00' ∉ dir)
    (hroot : isRooted path = false) :
    cStr (stdJoin dir path) = dir ++ joinSep dir ++ cStr path := by
  have hsep : '\x00' ∉ joinSep dir := by
    rw [joinSep]
    split <;> decide
  rw [stdJoin_of_not_rooted hroot, cStr_append_of_not_mem]
  rw [List.mem_append]
  exact not_or.mpr ⟨hnul, hsep⟩

theorem cStr_stdJoin_ne_nil {dir path : Str} (hnul : '\x00' ∉ dir) (hne : cStr path ≠ []) :
    cStr (stdJoin dir path) ≠ [] := by
  cases hroot : isRooted path with
  | true =>
      rw [stdJoin_of_rooted hroot]
      exact hne
  | false =>
      rw [cStr_stdJoin_of_not_rooted hnul hroot]
      simp [hne]

theorem cStr_joinOf_ne_nil {dir path : Str} (hnul : '\x00' ∉ dir) (hne : cStr path ≠ [])
    (b : Backend) : cStr (joinOf b dir path) ≠ [] := by
  have hgeneric : ∀ s, (cStr (genericString s) = []) = (cStr s = []) := fun s => by
    rw [cStr_genericString, genericString_eq_nil_iff]
  rw [ne_eq, apply_joinOf (f := fun s => cStr s = []) hgeneric]
  exact cStr_stdJoin_ne_nil hnul hne

/-- The walk of a join goes on where the walk of the directory has arrived. -/
theorem walkFrom_joined {dir path : Str} (hnul : '\x00' ∉ dir) (hdir : dir ≠ [])
    (hroot : isRooted path = false) (hne : cStr path ≠ []) {left : Nat} {R : List FileName}
    (hwalk : sys.walkFrom dir (trail dir) = .ok (left, .dir R)) :
    sys.walkFrom (cStr (stdJoin dir path))
        (trail (cStr (stdJoin dir path)) ++ endMove (cStr (stdJoin dir path))) =
      sys.tree.walk left (.dir R) (trail (cStr path) ++ endMove (cStr path)) := by
  have horigin : sys.origin (dir ++ joinSep dir ++ cStr path) = sys.origin dir := by
    rw [System.origin, System.origin, List.append_assoc, isRooted_append hdir]
  rw [cStr_stdJoin_of_not_rooted hnul hroot, trail_append_joinSep dir hdir, endMove_append hne,
    System.walkFrom, horigin, List.append_assoc]
  exact Tree.walk_append_of_ok hwalk _

/-- After a change of directory a path names what it named behind the directory.
Only links can make a difference: those on the way to the directory count once
more in a join. -/
theorem stat_join_of_setCwd {denied : Bool} {dir : Str} (hnul : '\x00' ∉ dir)
    (h : setCwd denied sys dir = (true, sys')) (b : Backend) {path : Str} (hne : cStr path ≠ []) :
    sys.stat (joinOf b dir path) = sys'.stat path ∨
      sys.stat (joinOf b dir path) = .error .loop := by
  obtain ⟨hstat, htree, -, hmax⟩ := setCwd_cases h
  have hcstr : cStr dir = dir := cStr_of_not_mem hnul
  have hdir : dir ≠ [] := hcstr ▸ (System.stat_eq_ok hstat).1
  rw [System.stat_joinOf]
  cases hroot : isRooted path with
  | true =>
      -- a rooted path starts over in both
      left
      have horigin : sys'.origin (cStr path) = sys.origin (cStr path) := by
        rw [System.origin, System.origin, isRooted_cStr hne, hroot, if_pos rfl, if_pos rfl]
      rw [stdJoin_of_rooted hroot]
      apply stat_congr hne hne
      rw [System.walkFrom, System.walkFrom, horigin, htree, hmax]
  | false =>
      obtain ⟨left, hwalk⟩ := (System.walkFrom_trail_of_stat hstat).1
      rw [hcstr] at hwalk
      have hjoinne := cStr_stdJoin_ne_nil hnul hne
      have hjoin := walkFrom_joined hnul hdir hroot hne hwalk
      have hwalk' : sys'.walkFrom (cStr path) (trail (cStr path) ++ endMove (cStr path)) =
          sys.tree.walk sys.maxLinks (.dir sys'.cwd)
            (trail (cStr path) ++ endMove (cStr path)) := by
        rw [System.walkFrom, System.origin, isRooted_cStr hne, hroot, if_neg Bool.false_ne_true,
          htree, hmax]
      by_cases hloop : sys.tree.walk left (.dir sys'.cwd)
          (trail (cStr path) ++ endMove (cStr path)) = .error .loop
      · right
        exact System.stat_of_walkFrom_error _ hjoinne (hjoin.trans hloop)
      · left
        apply stat_congr hjoinne hne
        obtain ⟨k, hk⟩ := Nat.exists_eq_add_of_le (Tree.walk_left_le hwalk)
        rw [hjoin, hwalk', hk]
        exact (Tree.walk_budget hloop k).symm

theorem cStr_foldr_joinOf_ne_nil {dirs : List Str} (hnul : ∀ dir ∈ dirs, '\x00' ∉ dir) (b : Backend)
    {path : Str} (hne : cStr path ≠ []) : cStr (dirs.foldr (joinOf b) path) ≠ [] := by
  induction dirs with
  | nil => exact hne
  | cons dir dirs ih =>
      exact cStr_joinOf_ne_nil (hnul dir List.mem_cons_self)
        (ih fun d hd => hnul d (List.mem_cons_of_mem _ hd)) b

/-- A run of changes of directory is one long join: what a path names at its end
the join of all directories and the path names at its start, unless that has too
many links on its way. -/
theorem stat_foldr_join_of_changesDir {dirs : List Str} (h : ChangesDir sys dirs sys')
    (hnul : ∀ dir ∈ dirs, '\x00' ∉ dir) (b : Backend) {path : Str} (hne : cStr path ≠ []) :
    sys.stat (dirs.foldr (joinOf b) path) = sys'.stat path ∨
      sys.stat (dirs.foldr (joinOf b) path) = .error .loop := by
  induction h with
  | nil sys => exact .inl rfl
  | cons first rest ih =>
      rename_i denied sys mid sys'' dir dirs
      have hdirs : ∀ d ∈ dirs, '\x00' ∉ d := fun d hd => hnul d (List.mem_cons_of_mem _ hd)
      rw [List.foldr_cons]
      rcases stat_join_of_setCwd (hnul dir List.mem_cons_self) first b
        (cStr_foldr_joinOf_ne_nil hdirs b hne) with hstep | hloop
      · rw [hstep]
        exact ih hdirs
      · exact .inr hloop

theorem stat_dot (sys : System) : sys.stat dot = .ok (.dir sys.cwd) := by
  apply System.stat_of_walkFrom sys.maxLinks (by decide)
  exact (Tree.walk_stay_cons sys.maxLinks sys.cwd []).trans (Tree.walk_nil _ _)

/-- Changing to one directory after the other and joining them agree: on what
every path names, and on the directory that is reached. -/
theorem changesDir_join {dirs : List Str} (h : ChangesDir sys dirs sys')
    (hnul : ∀ dir ∈ dirs, '\x00' ∉ dir) (b : Backend) :
    (∀ path, cStr path ≠ [] → sys.stat (dirs.foldr (joinOf b) path) = sys'.stat path ∨
      sys.stat (dirs.foldr (joinOf b) path) = .error .loop) ∧
    (sys'.getCwd = sys.realPath (dirs.foldr (joinOf b) dot) ∨
      sys.stat (dirs.foldr (joinOf b) dot) = .error .loop) := by
  refine ⟨fun path hne => stat_foldr_join_of_changesDir h hnul b hne, ?_⟩
  have hdot : cStr dot ≠ [] := by decide
  rcases stat_foldr_join_of_changesDir h hnul b hdot with hstat | hloop
  · left
    rw [System.realPath, hstat, stat_dot]
    rfl
  · exact .inr hloop

theorem changesDir_join_linkedDir :
    (∀ path, cStr path ≠ [] →
      linkedDir.stat (["l".toList, ".".toList].foldr (joinOf .c) path) =
          (setCwd false (setCwd false linkedDir "l".toList).2 ".".toList).2.stat path ∨
        linkedDir.stat (["l".toList, ".".toList].foldr (joinOf .c) path) = .error .loop) ∧
    ((setCwd false (setCwd false linkedDir "l".toList).2 ".".toList).2.getCwd =
        linkedDir.realPath (["l".toList, ".".toList].foldr (joinOf .c) dot) ∨
      linkedDir.stat (["l".toList, ".".toList].foldr (joinOf .c) dot) = .error .loop) := by
  have hfirst : setCwd false linkedDir "l".toList =
      (true, (setCwd false linkedDir "l".toList).2) := Prod.ext (by decide +kernel) rfl
  have hsecond : setCwd false (setCwd false linkedDir "l".toList).2 ".".toList =
      (true, (setCwd false (setCwd false linkedDir "l".toList).2 ".".toList).2) :=
    Prod.ext (by decide +kernel) rfl
  exact changesDir_join (.cons hfirst (.cons hsecond (.nil _))) (by decide) .c

end Cwd

section Parent

/-- A path is slashes, or a name with text in front of it and slashes behind. -/
theorem path_cases (path : Str) :
    (∀ c ∈ path, c = '/') ∨
      ∃ front name slashes, path = front ++ name ++ slashes ∧ IsFront front ∧ name ≠ [] ∧
        '/' ∉ name ∧ (∀ c ∈ slashes, c = '/') ∧
        path.rdropWhile (· = '/') = front ++ name := by
  have hslashes : ∀ c ∈ path.rtakeWhile (· = '/'), c = '/' := fun c hc => by
    simpa using List.mem_rtakeWhile_imp hc
  have hcut : path.rdropWhile (· = '/') ++ path.rtakeWhile (· = '/') = path :=
    List.rdropWhile_append_rtakeWhile
  by_cases htrim : path.rdropWhile (· = '/') = []
  · left
    rw [htrim, List.nil_append] at hcut
    rwa [hcut] at hslashes
  · right
    refine ⟨upToLastSlash (path.rdropWhile (· = '/')),
      fileName .posix (path.rdropWhile (· = '/')), path.rtakeWhile (· = '/'), ?_,
      isFront_upToLastSlash _, ?_, slash_not_mem_fileName _, hslashes, ?_⟩
    · rw [upToLastSlash_append_fileName, hcut]
    · intro hname
      have hlast := List.rdropWhile_last_not (fun c => decide (c = '/')) path htrim
      have hfront := upToLastSlash_append_fileName (path.rdropWhile (· = '/'))
      rw [hname, List.append_nil] at hfront
      obtain hnil | ⟨text, htext⟩ := isFront_upToLastSlash (path.rdropWhile (· = '/'))
      · exact htrim (hfront.symm.trans hnil)
      · rw [htext] at hfront
        simp [← hfront] at hlast
    · rw [upToLastSlash_append_fileName]

/-- A path of slashes is its own parent, up to their number. -/
theorem parent_slashes (b : Backend) {path : Str} (hne : path ≠ []) (h : ∀ c ∈ path, c = '/') :
    parent b path ≠ [] ∧ ∀ c ∈ parent b path, c = '/' := by
  refine ⟨parent_ne_nil b path, ?_⟩
  obtain ⟨k, rfl⟩ : ∃ k, path = List.replicate (k + 1) '/' := by
    obtain ⟨c, rest, rfl⟩ := List.exists_cons_of_ne_nil hne
    refine ⟨rest.length, ?_⟩
    rw [List.eq_replicate_iff]
    exact ⟨rfl, h⟩
  have hend : ([] : Str).getLast? ≠ some '/' := by simp
  have hdrop := rdropWhile_append_slashes hend (k + 1)
  rw [List.nil_append] at hdrop
  have hfront : upToLastSlash (List.replicate (k + 1) '/') = List.replicate (k + 1) '/' := by
    rw [List.replicate_succ']
    exact List.rdropWhile_concat_neg _ _ _ (by simp)
  cases b with
  | c =>
      have hcstr : cStr (List.replicate (k + 1) '/') = List.replicate (k + 1) '/' :=
        cStr_of_not_mem (by simp)
      rw [parent, hcstr, dirname_eq, hdrop, if_pos rfl, hfront, dirText_slashes]
      split <;> simp
  | cxxFilesystem =>
      have htrim : dropTrailingSlash (List.replicate (k + 1) '/') = ['/'] := by
        have hrest := rdropWhile_append_slashes hend k
        rw [List.nil_append] at hrest
        rw [List.replicate_succ, dropTrailingSlash, hrest]
      have hparent : parent .cxxFilesystem (List.replicate (k + 1) '/') = ['/'] := by
        rw [parent, htrim]
        rfl
      simp [hparent]

theorem dropTrailingSlash_eq_rdropWhile {path : Str} (h : path.rdropWhile (· = '/') ≠ []) :
    dropTrailingSlash path = path.rdropWhile (· = '/') := by
  cases path with
  | nil => exact absurd rfl h
  | cons c rest =>
      rw [dropTrailingSlash]
      by_cases hrest : rest.rdropWhile (· = '/') = []
      · have hcut : (c :: rest).rdropWhile (· = '/') = [c].rdropWhile (· = '/') :=
          Ends.rdropWhile_append_of_all (List.rdropWhile_eq_nil_iff.mp hrest) [c]
        by_cases hc : c = '/'
        · rw [hcut, hc] at h
          exact absurd rfl h
        · rw [hcut, hrest, List.rdropWhile_singleton, if_neg (by simpa using hc)]
      · rw [List.rdropWhile, List.rdropWhile, List.reverse_cons, List.dropWhile_append]
        rw [List.rdropWhile, List.reverse_eq_nil_iff] at hrest
        rw [if_neg (by simpa using hrest), List.reverse_append]
        rfl

/-- The parent of a path with a name in it is the text in front of that name,
without the slashes at its end. -/
theorem parent_name (b : Backend) {path front name : Str} (hnul : '\x00' ∉ path)
    (htrim : path.rdropWhile (· = '/') = front ++ name) (hfront : IsFront front)
    (hne : name ≠ []) (hname : '/' ∉ name) :
    (front = [] ∧ parent b path = dot) ∨
      (front ≠ [] ∧ (∀ c ∈ front, c = '/') ∧ parent b path ≠ [] ∧ ∀ c ∈ parent b path, c = '/') ∨
      ∃ dir k, dir ≠ [] ∧ front = dir ++ List.replicate (k + 1) '/' ∧
        dir.getLast? ≠ some '/' ∧ parent b path = dir := by
  have hup : upToLastSlash (front ++ name) = front := upToLastSlash_append hfront hname
  have htrimne : path.rdropWhile (· = '/') ≠ [] := by simp [htrim, hne]
  have hparent : parent b path = if front = [] then dot else
      if front.rdropWhile (· = '/') = [] then
        (if b = .c ∧ front = ['/', '/'] then front else ['/'])
      else front.rdropWhile (· = '/') := by
    cases b with
    | c =>
        rw [parent, cStr_of_not_mem hnul, dirname_eq, if_neg htrimne, htrim, hup, dirText]
        simp
    | cxxFilesystem =>
        rw [parent, dropTrailingSlash_eq_rdropWhile htrimne, htrim, parentPath, hup]
        by_cases hnil : front = []
        · simp [hnil]
        · by_cases hdrop : front.rdropWhile (· = '/') = []
          · simp [hnil, hdrop]
          · simp [hnil, hdrop]
  rw [hparent]
  obtain rfl | ⟨dir, k, rfl, hlast⟩ := hfront.cases
  · exact .inl ⟨rfl, rfl⟩
  · right
    have hdrop := rdropWhile_append_slashes hlast (k + 1)
    by_cases hdir : dir = []
    · left
      subst hdir
      have hall : ∀ c ∈ [] ++ List.replicate (k + 1) '/', c = '/' := fun c hc =>
        List.eq_of_mem_replicate hc
      refine ⟨by simp, hall, ?_⟩
      rw [if_neg (by simp), if_pos hdrop]
      split
      · exact ⟨by simp, hall⟩
      · simp
    · right
      refine ⟨dir, k, hdir, rfl, hlast, ?_⟩
      rw [if_neg (by simp), hdrop, if_neg hdir]

/-- A path and the moves of another lead alike: from the same start, in any tree. -/
def LeadsAlike (path : Str) (rooted : Bool) (moves : List (Move FileName)) : Prop :=
  isRooted path = rooted ∧ ∀ (T : FileTree.Tree FileName) (budget : Nat) (R : List FileName),
    T.walk budget (.dir R) (trail path ++ endMove path) = T.walk budget (.dir R) moves

theorem leadsAlike_slashes {path : Str} (hne : path ≠ []) (h : ∀ c ∈ path, c = '/') :
    LeadsAlike path true [] := by
  have htrail : trail path = [] := trail_append_of_all h []
  have hlast : path.getLast? = some '/' := by
    rw [List.getLast?_eq_some_getLast hne, h _ (List.getLast_mem hne)]
  refine ⟨?_, fun T budget R => ?_⟩
  · obtain ⟨c, rest, rfl⟩ := List.exists_cons_of_ne_nil hne
    rw [isRooted, h c List.mem_cons_self]
    rfl
  · rw [htrail, List.nil_append, endMove, if_pos hlast, Tree.walk_stay_cons]

/-- The parent leads where the path leads without its last component. -/
theorem leadsAlike_parent (b : Backend) {path : Str} (hne : path ≠ []) (hnul : '\x00' ∉ path) :
    LeadsAlike (parent b path) (isRooted path) (trail path).dropLast := by
  rcases path_cases path with hall | ⟨front, name, slashes, hpath, hfront, hname, hslash, hslashes,
    htrim⟩
  · have hself := leadsAlike_slashes hne hall
    have htrail : trail path = [] := trail_append_of_all hall []
    obtain ⟨hpne, hpall⟩ := parent_slashes b hne hall
    rw [hself.1, htrail]
    exact leadsAlike_slashes hpne hpall
  · have hlast : (trail path).dropLast = trail front := by
      obtain rfl | ⟨text, rfl⟩ := hfront
      · rw [hpath, trail_append_of_all hslashes, List.nil_append, trail_of_not_mem hname hslash]
        rfl
      · rw [hpath, trail_append_of_all hslashes, List.append_assoc, List.singleton_append,
          trail_append_slash, trail_append_slash, trail_of_not_mem hname hslash, trail_nil,
          List.append_nil, List.dropLast_concat]
    rw [hlast]
    rcases parent_name b hnul htrim hfront hname hslash with ⟨rfl, hdot⟩ |
      ⟨hfne, hall, hpne, hpall⟩ | ⟨dir, k, hdir, rfl, hend, hparent⟩
    · rw [hdot, trail_nil]
      refine ⟨?_, fun T budget R => Tree.walk_stay_cons budget R []⟩
      obtain ⟨c, rest, rfl⟩ := List.exists_cons_of_ne_nil hname
      have hc : c ≠ '/' := fun heq => hslash (heq ▸ List.mem_cons_self)
      rw [hpath]
      simp [isRooted, dot, hc]
    · have hroot : isRooted path = true := by
        rw [hpath, List.append_assoc, isRooted_append hfne, (leadsAlike_slashes hfne hall).1]
      have htrail : trail front = [] := trail_append_of_all hall []
      rw [hroot, htrail]
      exact leadsAlike_slashes hpne hpall
    · have htrail : trail (dir ++ List.replicate (k + 1) '/') = trail dir :=
        trail_append_of_all (fun c hc => List.eq_of_mem_replicate hc) dir
      rw [hparent, htrail]
      refine ⟨?_, fun T budget R => ?_⟩
      · rw [hpath, List.append_assoc, List.append_assoc, isRooted_append hdir]
      · rw [endMove, if_neg hend, List.append_nil]

theorem nul_not_mem_parent (b : Backend) {path : Str} (hne : path ≠ []) (hnul : '\x00' ∉ path) :
    '\x00' ∉ parent b path := by
  rcases path_cases path with hall | ⟨front, name, slashes, hpath, hfront, hname, hslash, hslashes,
    htrim⟩
  · intro hmem
    exact absurd ((parent_slashes b hne hall).2 _ hmem) (by decide)
  · rcases parent_name b hnul htrim hfront hname hslash with ⟨rfl, hdot⟩ | ⟨-, -, -, hpall⟩ |
      ⟨dir, k, hdir, rfl, hend, hparent⟩
    · rw [hdot]
      decide
    · intro hmem
      exact absurd (hpall _ hmem) (by decide)
    · rw [hparent]
      intro hmem
      apply hnul
      rw [hpath]
      simp [hmem]

/-- The parent of a path names the directory that the calls which make, remove or
rename an entry look its last component up in. -/
theorem stat_parent_iff_locate (b : Backend) (sys : System) {path : Str} (hne : path ≠ [])
    (hnul : '\x00' ∉ path) (R : List FileName) :
    sys.stat (parent b path) = .ok (.dir R) ↔ ∃ last, sys.locate path = .ok (R, last) := by
  obtain ⟨hroot, hleads⟩ := leadsAlike_parent b hne hnul
  have hcstr : cStr (parent b path) = parent b path :=
    cStr_of_not_mem (nul_not_mem_parent b hne hnul)
  have hwalk : sys.walkFrom (cStr (parent b path))
      (trail (cStr (parent b path)) ++ endMove (cStr (parent b path))) =
      sys.walkFrom (cStr path) (trail (cStr path)).dropLast := by
    rw [hcstr, cStr_of_not_mem hnul, System.walkFrom, System.walkFrom, System.origin,
      System.origin, hroot, hleads]
  have hpne : cStr (parent b path) ≠ [] := by
    rw [hcstr]
    exact parent_ne_nil b path
  constructor
  · intro hstat
    obtain ⟨-, left, hok⟩ := System.stat_eq_ok hstat
    rw [hwalk] at hok
    refine ⟨(trail (cStr path)).getLast?.getD .stay, ?_⟩
    simp only [System.locate, cStr_of_not_mem hnul, if_neg hne]
    rw [cStr_of_not_mem hnul] at hok
    rw [hok]
  · rintro ⟨last, hlocate⟩
    obtain ⟨-, -, left, hok⟩ := System.locate_eq_ok hlocate
    exact System.stat_of_walkFrom left hpne (hwalk.trans hok)

theorem stat_parent_linkedDir :
    linkedDir.stat (parent .c "l//f/".toList) = .ok (.dir [⟨['d'], isFileName_d⟩]) ↔
      ∃ last, linkedDir.locate "l//f/".toList = .ok ([⟨['d'], isFileName_d⟩], last) :=
  stat_parent_iff_locate .c linkedDir (by decide) (by decide) _

end Parent

section Canonical

variable {sys : System}

theorem endMove_absString {R : List FileName} (hne : R ≠ []) : endMove (absString R) = [] := by
  have hpieces : ∀ piece ∈ R.map Subtype.val, piece ≠ [] ∧ '/' ∉ piece := by
    intro piece hpiece
    obtain ⟨name, -, rfl⟩ := List.mem_map.mp hpiece
    exact ⟨name.2.1.1, name.2.1.2.2.2⟩
  have hjoin : ['/'].intercalate (R.map Subtype.val) ≠ [] := by
    intro hnil
    have hback := Scan.components_intercalate hpieces
    rw [hnil, Scan.components_nil] at hback
    exact hne (List.map_eq_nil_iff.mp hback.symm)
  have hcons := endMove_append (a := ['/']) hjoin
  rw [List.singleton_append] at hcons
  rw [absString, hcons, endMove, if_neg (Scan.getLast?_intercalate_ne hpieces)]

/-- The way to what is there names it. -/
theorem stat_absString {spot : Spot FileName} (h : sys.tree.Stands spot) :
    sys.stat (absString spot.path) = .ok spot := by
  have hcstr : cStr (absString spot.path) = absString spot.path :=
    cStr_of_not_mem (nul_not_mem_absString spot.path)
  apply System.stat_of_walkFrom sys.maxLinks
  · rw [hcstr]
    exact List.cons_ne_nil _ _
  have horigin : sys.origin (absString spot.path) = [] := rfl
  rw [hcstr, trail_absString, System.walkFrom, horigin]
  cases spot with
  | dir R =>
      have hdir : sys.tree.IsDir ([] ++ R) := h
      show sys.tree.walk sys.maxLinks (.dir []) (R.map .down ++ endMove (absString R)) = _
      rw [Tree.walk_names hdir]
      by_cases hR : R = []
      · subst hR
        exact (Tree.walk_stay_cons sys.maxLinks [] []).trans (Tree.walk_nil _ _)
      · rw [endMove_absString hR]
        exact Tree.walk_nil _ _
  | file R name ino =>
      have hentry : (⟨R, name, .file ino⟩ : Entry FileName) ∈ sys.tree.entries := h
      have hdir : sys.tree.IsDir ([] ++ R) := sys.tree.housed _ hentry
      have hfind := Tree.lookup_self hentry
      show sys.tree.walk sys.maxLinks (.dir [])
        ((R ++ [name]).map .down ++ endMove (absString (R ++ [name]))) = _
      rw [endMove_absString (List.concat_ne_nil name R), List.append_nil, List.map_append,
        Tree.walk_names hdir, List.nil_append, List.map_singleton,
        Tree.walk_down_of_file hfind rfl, Tree.walk_nil]

theorem canonical_of_stat {path : Str} {spot : Spot FileName} (h : sys.stat path = .ok spot)
    (strict : Bool) : canonical sys path strict = absString spot.path := by
  have hne : path ≠ [] := by
    rintro rfl
    exact (System.stat_eq_ok h).1 rfl
  have hreal : sys.realPath path = absString spot.path := by rw [System.realPath, h]
  rw [canonical, if_neg (by simpa using hne), hreal, if_pos (by simp [absString])]

/-- The absolute path of the empty path is the current directory. -/
theorem stat_absolute_nil (sys : System) : sys.stat (absolute sys []) = .ok (.dir sys.cwd) :=
  stat_absString (show sys.tree.Stands (.dir sys.cwd) from sys.cwd_isDir)

/-- A rooted path that names something resolves to the way to it. -/
theorem resolve_of_rooted_of_stat {p : Str} {spot : Spot FileName} (hroot : isRooted p = true)
    (hstat : sys.stat p = .ok spot) : resolve sys p false = absString spot.path := by
  rw [resolve, absolute_of_rooted hroot]
  exact canonical_of_stat hstat false

/-- `resolve` is idempotent on a path that names something, or whose normal form names
nothing, or is the way to something from the root on, as its entries are spelled. It
is not on a path that names nothing while a link is on the way of its normal form. -/
theorem resolve_resolve_iff (path : Str) :
    resolve sys (resolve sys path false) false = resolve sys path false ↔
      (∃ spot, sys.stat (absolute sys path) = .ok spot) ∨
        (∀ spot, sys.stat (normal .posix (absolute sys path)) ≠ .ok spot) ∨
          ∃ spot, sys.tree.Stands spot ∧
            normal .posix (absolute sys path) = absString spot.path := by
  cases hstat : sys.stat (absolute sys path) with
  | ok spot =>
      refine iff_of_true ?_ (.inl ⟨spot, rfl⟩)
      have hfirst : resolve sys path false = absString spot.path := canonical_of_stat hstat false
      rw [hfirst]
      exact resolve_of_rooted_of_stat rfl (stat_absString (System.stat_stands hstat))
  | error e =>
      have hnone : ¬ ∃ spot, (.error e : Except Errno (Spot FileName)) = .ok spot := by
        rintro ⟨spot, hok⟩
        cases hok
      have hne : path ≠ [] := by
        rintro rfl
        rw [stat_absolute_nil] at hstat
        cases hstat
      rw [or_iff_right hnone, resolve_of_stat_error hne hstat]
      have hroot : isRooted (normal .posix (absolute sys path)) = true := by
        rw [isRooted_normal, isRooted_absolute sys hne]
      cases hagain : sys.stat (normal .posix (absolute sys path)) with
      | ok spot =>
          rw [resolve_of_rooted_of_stat hroot hagain, or_iff_right (fun h => h spot rfl)]
          refine ⟨fun heq => ⟨spot, System.stat_stands hagain, heq.symm⟩, ?_⟩
          rintro ⟨spot', hstands, heq⟩
          rw [heq, stat_absString hstands] at hagain
          rw [heq, Except.ok.inj hagain]
      | error e' =>
          refine iff_of_true ?_ (.inl nofun)
          have hnormal : normal .posix (absolute sys path) ≠ [] := ne_nil_of_isRooted hroot
          have habs : absolute sys (normal .posix (absolute sys path)) =
              normal .posix (absolute sys path) := absolute_of_rooted hroot
          rw [← habs] at hagain
          rw [resolve_of_stat_error hnormal hagain, absolute_of_rooted hroot, normal_idempotent]

/-- The text `"/l"` is what is left of the path, and it is a link. -/
example : resolve linkedDir (resolve linkedDir "x/../l".toList false) false = "/d".toList ∧
    resolve linkedDir "x/../l".toList false = "/l".toList := by decide +kernel

end Canonical

end Ffilesystem
