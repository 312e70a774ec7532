import Ffilesystem.Library.Relocation
import Ffilesystem.Links

/-!
# Renaming on POSIX systems

`rename` moves an entry with everything below it. What has the new name already
is replaced if it can be: a file or link by a file or link, an empty directory by
a directory. Two names of one file are left as they are, and a directory does not
go below itself.

After a move the tree is the old one with one path rewritten, so everything that
was there is there under its new path with the content it had, and nothing else
is there (`rename_moves`). Renaming to a free name and back changes nothing.
-/

namespace Ffilesystem

open FileTree Lexical

namespace System

variable (sys : System)

/-- The system with an entry moved to a free name of a directory. The current
directory stays the same directory. -/
def moved (e : Entry FileName) (R : List FileName) (name : FileName) (hdir : sys.tree.IsDir R)
    (hout : ¬ e.path <+: R) (hnew : sys.tree.lookup R name = none) : System where
  tree := sys.tree.relocate e.path R name (List.concat_ne_nil _ _) hdir hout hnew
  data := sys.data
  specials := sys.specials
  cwd := rebase e.path (R ++ [name]) sys.cwd
  maxLinks := sys.maxLinks
  cwd_isDir := Tree.isDir_relocate _ hdir hout hnew sys.cwd_isDir

/-- A directory does not go below itself. -/
def moveEntry (e : Entry FileName) (R : List FileName) (name : FileName) :
    Except Errno System :=
  if h : sys.tree.IsDir R ∧ ¬ e.path <+: R ∧ sys.tree.lookup R name = none then
    .ok (sys.moved e R name h.1 h.2.1 h.2.2)
  else .error (.other 22)

/-- Whether two entries are two names of one file. -/
def sameFile : Node FileName → Node FileName → Bool
  | .file ino, .file ino' => ino = ino'
  | _, _ => false

/-- The `rename` of the C library. -/
def renameCall (old new : Str) : Except Errno System :=
  match sys.locate old with
  | .ok (R, .down name) =>
      match sys.tree.lookup R name with
      | none => .error .noent
      | some e =>
          match sys.locate new with
          | .ok (R', .down name') =>
              if e.node ≠ .dir ∧ (endMove (cStr old) ≠ [] ∨ endMove (cStr new) ≠ []) then
                .error .notdir
              else
                match sys.tree.lookup R' name' with
                | none => sys.moveEntry e R' name'
                | some e' =>
                    if e' = e ∨ sameFile e.node e'.node then .ok sys
                    else if e.node = .dir ∧ e'.node ≠ .dir then .error .notdir
                    else if e.node ≠ .dir ∧ e'.node = .dir then .error .isdir
                    else
                      match sys.removeEntry e' with
                      | .ok cleared => cleared.moveEntry e R' name'
                      | .error err => .error err
          | .ok _ => .error .busy
          | .error err => .error err
  | .ok _ => .error .busy
  | .error err => .error err

end System

/-- `rename` of either backend. -/
def rename (refused : Bool) (sys : System) (old new : Str) : Bool × System :=
  match sys.renameCall old new with
  | .ok sys' => if refused then (false, sys) else (true, sys')
  | .error _ => (false, sys)

/-- A spot after the entry at `p` was moved to `name` in `R`. -/
def moveSpot (p R : List FileName) (name : FileName) : Spot FileName → Spot FileName
  | .dir D => .dir (rebase p (R ++ [name]) D)
  | .file D n ino =>
      if D ++ [n] = p then .file R name ino else .file (rebase p (R ++ [name]) D) n ino

section Move

variable {sys sys' : System} {e : Entry FileName} {R : List FileName} {name : FileName}

theorem moveSpot_path (p : List FileName) (s : Spot FileName) :
    (moveSpot p R name s).path = rebase p (R ++ [name]) s.path := by
  cases s with
  | dir D => rfl
  | file D n ino =>
      rw [moveSpot]
      split
      · rename_i h
        show R ++ [name] = rebase p (R ++ [name]) (D ++ [n])
        rw [h, rebase_self]
      · rename_i h
        exact (rebase_concat h).symm

theorem moveEntry_cases (h : sys.moveEntry e R name = .ok sys') :
    ∃ (hdir : sys.tree.IsDir R) (hout : ¬ e.path <+: R) (hnew : sys.tree.lookup R name = none),
      sys' = sys.moved e R name hdir hout hnew := by
  rw [System.moveEntry] at h
  split at h
  · rename_i hfree
    cases h
    exact ⟨hfree.1, hfree.2.1, hfree.2.2, rfl⟩
  · cases h

theorem moveEntry_of_free (hdir : sys.tree.IsDir R) (hout : ¬ e.path <+: R)
    (hnew : sys.tree.lookup R name = none) :
    sys.moveEntry e R name = .ok (sys.moved e R name hdir hout hnew) :=
  dif_pos ⟨hdir, hout, hnew⟩

theorem stands_moveSpot (h : sys.moveEntry e R name = .ok sys') {s : Spot FileName}
    (hs : sys.tree.Stands s) : sys'.tree.Stands (moveSpot e.path R name s) := by
  obtain ⟨hdir, hout, hnew, rfl⟩ := moveEntry_cases h
  cases s with
  | dir D => exact Tree.isDir_relocate (List.concat_ne_nil _ _) hdir hout hnew hs
  | file D n ino =>
      have hmem : (⟨D, n, .file ino⟩ : Entry FileName) ∈ sys.tree.entries := hs
      have hmoved := Tree.mem_relocate (List.concat_ne_nil _ _) hdir hout hnew (p := e.path) hmem
      rw [moveSpot]
      split
      · rename_i hpath
        have hself : (⟨D, n, .file ino⟩ : Entry FileName).path = e.path := hpath
        rw [Entry.relocate, if_pos hself] at hmoved
        exact hmoved
      · rename_i hpath
        have hother : (⟨D, n, .file ino⟩ : Entry FileName).path ≠ e.path := hpath
        rw [Entry.relocate_of_ne hother] at hmoved
        exact hmoved

/-- Nothing else is there after the move. -/
theorem exists_stands_of_moveEntry (h : sys.moveEntry e R name = .ok sys') {s : Spot FileName}
    (hs : sys'.tree.Stands s) : ∃ s₀, sys.tree.Stands s₀ ∧ moveSpot e.path R name s₀ = s := by
  obtain ⟨hdir, hout, hnew, rfl⟩ := moveEntry_cases h
  cases s with
  | dir D =>
      rcases hs with rfl | ⟨y, hy, hnode, rfl⟩
      · refine ⟨.dir [], .inl rfl, ?_⟩
        rw [moveSpot, rebase_elsewhere]
        exact fun hpre => List.concat_ne_nil _ _ (List.prefix_nil.mp hpre)
      · obtain ⟨x, hx, rfl⟩ := List.mem_map.mp hy
        rw [Entry.relocate_node] at hnode
        exact ⟨.dir x.path, Tree.isDir_path hx hnode, by rw [moveSpot, Entry.relocate_path]⟩
  | file D n ino =>
      have hmem : (⟨D, n, .file ino⟩ : Entry FileName) ∈
          sys.tree.entries.map (Entry.relocate e.path R name) := hs
      obtain ⟨x, hx, hxy⟩ := List.mem_map.mp hmem
      obtain ⟨xdir, xname, xnode⟩ := x
      have hnode := congrArg Entry.node hxy
      rw [Entry.relocate_node] at hnode
      obtain rfl : xnode = .file ino := hnode
      refine ⟨.file xdir xname ino, hx, ?_⟩
      rw [moveSpot]
      rw [Entry.relocate] at hxy
      split at hxy
      · rename_i hpath
        cases hxy
        exact if_pos hpath
      · rename_i hpath
        cases hxy
        exact if_neg hpath

end Move

section Rename

variable {sys sys' : System} {old new : Str}

theorem removeEntry_cases {e : Entry FileName} (h : sys.removeEntry e = .ok sys') :
    sys'.tree.entries = sys.tree.entries.filter (· ≠ e) ∧ sys'.data = sys.data ∧
      sys'.cwd = sys.cwd := by
  rw [System.removeEntry] at h
  split at h
  · split at h
    · cases h
      exact ⟨rfl, rfl, rfl⟩
    · cases h
  · cases h

theorem stands_removeEntry_iff {e : Entry FileName} (he : e ∈ sys.tree.entries)
    (h : sys.removeEntry e = .ok sys') (s : Spot FileName) :
    sys'.tree.Stands s ↔ sys.tree.Stands s ∧ s.path ≠ e.path := by
  have hmem : ∀ x : Entry FileName, x ∈ sys'.tree.entries ↔
      x ∈ sys.tree.entries ∧ x.path ≠ e.path := by
    intro x
    rw [(removeEntry_cases h).1, List.mem_filter, decide_eq_true_iff]
    refine and_congr_right fun hx => not_congr ⟨congrArg Entry.path, fun hpath => ?_⟩
    obtain ⟨hdir, hname⟩ := List.append_inj' hpath rfl
    exact Tree.eq_of_fold_eq hx he hdir (congrArg _ (List.singleton_inj.mp hname))
  cases s with
  | dir D =>
      constructor
      · rintro (rfl | ⟨x, hx, hnode, rfl⟩)
        · exact ⟨.inl rfl, fun heq => List.concat_ne_nil _ _ heq.symm⟩
        · obtain ⟨hx', hne⟩ := (hmem x).mp hx
          exact ⟨.inr ⟨x, hx', hnode, rfl⟩, hne⟩
      · rintro ⟨rfl | ⟨x, hx, hnode, rfl⟩, hne⟩
        · exact .inl rfl
        · exact .inr ⟨x, (hmem x).mpr ⟨hx, hne⟩, hnode, rfl⟩
  | file D n ino => exact hmem ⟨D, n, .file ino⟩

/-- What `rename` does, when it succeeds: nothing, a move to a free name, or a
move to a name that was cleared. -/
theorem renameCall_cases (h : sys.renameCall old new = .ok sys') :
    ∃ R name e R' name', sys.locate old = .ok (R, .down name) ∧
      sys.tree.lookup R name = some e ∧ sys.locate new = .ok (R', .down name') ∧
      ((sys' = sys ∧ ∃ e', sys.tree.lookup R' name' = some e' ∧
          (e' = e ∨ System.sameFile e.node e'.node)) ∨
        (sys.tree.lookup R' name' = none ∧ sys.moveEntry e R' name' = .ok sys') ∨
        ∃ e' cleared, sys.tree.lookup R' name' = some e' ∧ e' ≠ e ∧
          (e.node = .dir ↔ e'.node = .dir) ∧ sys.removeEntry e' = .ok cleared ∧
          cleared.moveEntry e R' name' = .ok sys') := by
  rw [System.renameCall] at h
  split at h
  case h_1 R name hold =>
    split at h
    case h_1 => cases h
    case h_2 e hfind =>
      split at h
      case h_1 R' name' hnew =>
        refine ⟨R, name, e, R', name', hold, hfind, hnew, ?_⟩
        split at h
        · cases h
        split at h
        case h_1 hnone => exact .inr (.inl ⟨hnone, h⟩)
        case h_2 e' hfound =>
          split at h
          case isTrue hsame =>
            cases h
            exact .inl ⟨rfl, e', hfound, hsame⟩
          case isFalse hsame =>
            split at h
            · cases h
            rename_i hdir
            split at h
            · cases h
            rename_i hfile
            split at h
            case h_1 cleared hcleared =>
              refine .inr (.inr ⟨e', cleared, hfound, fun heq => hsame (.inl heq), ?_, hcleared, h⟩)
              constructor
              · intro hnode
                by_contra hnot
                exact hdir ⟨hnode, hnot⟩
              · intro hnode
                by_contra hnot
                exact hfile ⟨hnot, hnode⟩
            case h_2 => cases h
      case h_2 => cases h
      case h_3 => cases h
  case h_2 => cases h
  case h_3 => cases h

/-- The spot is not what the name in `R` stood for. -/
def Survives (sys : System) (R : List FileName) (name : FileName) (s : Spot FileName) : Prop :=
  ∀ e', sys.tree.lookup R name = some e' → s.path ≠ e'.path

/-- The second system is the first one with `e` moved to `name` in `R`: its entries are
those of the first but the one that had that name, links among them, each under its new
path. Everything but what had that name is there under its new path, nothing else is,
and the old name is free. -/
structure Moved (sys sys' : System) (e : Entry FileName) (R : List FileName)
    (name : FileName) : Prop where
  data_eq : sys'.data = sys.data
  cwd_eq : sys'.cwd = rebase e.path (R ++ [name]) sys.cwd
  entries_eq : sys'.tree.entries =
    (sys.tree.entries.filter fun x => sys.tree.lookup R name ≠ some x).map
      (Entry.relocate e.path R name)
  kept : ∀ s, sys.tree.Stands s → Survives sys R name s →
    sys'.stat (absString (rebase e.path (R ++ [name]) s.path)) = .ok (moveSpot e.path R name s)
  only : ∀ s', sys'.tree.Stands s' →
    ∃ s, sys.tree.Stands s ∧ Survives sys R name s ∧ moveSpot e.path R name s = s'
  old_free : sys'.tree.lookup e.dir e.name = none

theorem moved_of_moveEntry {cleared : System} {e : Entry FileName} {R : List FileName}
    {name : FileName} (hdata : cleared.data = sys.data) (hcwd : cleared.cwd = sys.cwd)
    (hentries : cleared.tree.entries =
      sys.tree.entries.filter fun x => sys.tree.lookup R name ≠ some x)
    (he : e ∈ cleared.tree.entries)
    (hstands : ∀ s, cleared.tree.Stands s ↔ sys.tree.Stands s ∧ Survives sys R name s)
    (h : cleared.moveEntry e R name = .ok sys') : Moved sys sys' e R name where
  data_eq := by
    obtain ⟨hdir, hout, hnew, rfl⟩ := moveEntry_cases h
    exact hdata
  cwd_eq := by
    obtain ⟨hdir, hout, hnew, rfl⟩ := moveEntry_cases h
    rw [← hcwd]
    rfl
  entries_eq := by
    obtain ⟨hdir, hout, hnew, rfl⟩ := moveEntry_cases h
    rw [← hentries]
    rfl
  kept := by
    intro s hs hkept
    have hmoved := stands_moveSpot h ((hstands s).mpr ⟨hs, hkept⟩)
    rw [← moveSpot_path]
    exact stat_absString hmoved
  only := by
    intro s' hs'
    obtain ⟨s, hs, heq⟩ := exists_stands_of_moveEntry h hs'
    obtain ⟨hold, hkept⟩ := (hstands s).mp hs
    exact ⟨s, hold, hkept, heq⟩
  old_free := by
    obtain ⟨hdir, hout, hnew, rfl⟩ := moveEntry_cases h
    exact Tree.lookup_relocate_old (List.concat_ne_nil _ _) hdir hout hnew he rfl

/-- A successful `rename` moves the entry with everything below it and replaces
what had the new name, or the two are names of one thing and nothing happens. -/
theorem rename_moves {refused : Bool} (h : rename refused sys old new = (true, sys')) :
    ∃ R name e R' name', sys.locate old = .ok (R, .down name) ∧
      sys.tree.lookup R name = some e ∧ sys.locate new = .ok (R', .down name') ∧
      (Moved sys sys' e R' name' ∨
        (sys' = sys ∧ ∃ e', sys.tree.lookup R' name' = some e' ∧
          (e' = e ∨ System.sameFile e.node e'.node))) := by
  have hcall : sys.renameCall old new = .ok sys' := by
    rw [rename] at h
    split at h
    · rename_i made hmade
      split at h
      · cases h
      · cases h
        exact hmade
    · cases h
  obtain ⟨R, name, e, R', name', hold, hfind, hnew, hcases⟩ := renameCall_cases hcall
  refine ⟨R, name, e, R', name', hold, hfind, hnew, ?_⟩
  have he := (Tree.lookup_eq_some_iff.mp hfind).1
  rcases hcases with hnothing | ⟨hnone, hmove⟩ | ⟨e', cleared, hfound, hne, -, hclear, hmove⟩
  · exact .inr hnothing
  · refine .inl (moved_of_moveEntry rfl rfl ?_ he (fun s => ?_) hmove)
    · simp [hnone]
    · refine ⟨fun hs => ⟨hs, fun e' hfound => ?_⟩, And.left⟩
      rw [hnone] at hfound
      cases hfound
  · have he' := (Tree.lookup_eq_some_iff.mp hfound).1
    obtain ⟨hentries, hdata, hcwd⟩ := removeEntry_cases hclear
    refine .inl (moved_of_moveEntry hdata hcwd ?_ ?_ (fun s => ?_) hmove)
    · simp only [hentries, hfound, ne_eq, Option.some.injEq, eq_comm]
    · rw [hentries]
      exact List.mem_filter.mpr ⟨he, decide_eq_true (Ne.symm hne)⟩
    · rw [stands_removeEntry_iff he' hclear]
      refine and_congr_right fun _ => ⟨fun hpath e'' hfound' => ?_, fun hkept => hkept e' hfound⟩
      rw [hfound] at hfound'
      cases hfound'
      exact hpath

theorem rename_moves_linkedDir :
    ∃ R name e R' name', linkedDir.locate "l/f".toList = .ok (R, .down name) ∧
      linkedDir.tree.lookup R name = some e ∧
      linkedDir.locate "g".toList = .ok (R', .down name') ∧
      (Moved linkedDir (rename false linkedDir "l/f".toList "g".toList).2 e R' name' ∨
        ((rename false linkedDir "l/f".toList "g".toList).2 = linkedDir ∧
          ∃ e', linkedDir.tree.lookup R' name' = some e' ∧
            (e' = e ∨ System.sameFile e.node e'.node))) := by
  have h : rename false linkedDir "l/f".toList "g".toList =
      (true, (rename false linkedDir "l/f".toList "g".toList).2) :=
    Prod.ext (by decide +kernel) rfl
  exact rename_moves h

theorem locate_absString {R : List FileName} (hdir : sys.tree.IsDir R) (name : FileName) :
    sys.locate (absString (R ++ [name])) = .ok (R, .down name) := by
  have hcstr : cStr (absString (R ++ [name])) = absString (R ++ [name]) :=
    cStr_of_not_mem (nul_not_mem_absString _)
  have hwalk : sys.walkFrom (absString (R ++ [name])) (R.map .down) =
      .ok (sys.maxLinks, .dir R) := by
    have hroot : sys.tree.IsDir ([] ++ R) := hdir
    have hnames := Tree.walk_names hroot sys.maxLinks []
    rw [List.append_nil, Tree.walk_nil] at hnames
    exact hnames
  have hne : absString (R ++ [name]) ≠ [] := List.cons_ne_nil _ _
  simp only [System.locate, hcstr, if_neg hne, trail_absString, List.map_append,
    List.map_singleton, List.dropLast_concat, List.getLast?_concat, hwalk]
  rfl

theorem renameCall_of_free {e : Entry FileName} (he : e ∈ sys.tree.entries) {R : List FileName}
    {name : FileName} (hdir : sys.tree.IsDir R) (hnew : sys.tree.lookup R name = none) :
    sys.renameCall (absString e.path) (absString (R ++ [name])) = sys.moveEntry e R name := by
  have hend : ∀ (D : List FileName) (n : FileName),
      endMove (cStr (absString (D ++ [n]))) = [] := by
    intro D n
    rw [cStr_of_not_mem (nul_not_mem_absString _), endMove_absString (List.concat_ne_nil _ _)]
  have hold := locate_absString (sys.tree.housed e he) e.name
  rw [System.renameCall, Entry.path, hold]
  dsimp only
  rw [Tree.lookup_self he]
  dsimp only
  rw [locate_absString hdir name]
  dsimp only
  rw [if_neg (fun h => h.2.elim (fun h => h (hend _ _)) (fun h => h (hend _ _))), hnew]

/-- Renaming to a free name and back changes nothing at all, however much is below
the entry. -/
theorem rename_rename_back {e : Entry FileName} (he : e ∈ sys.tree.entries) {R : List FileName}
    {name : FileName} (hdir : sys.tree.IsDir R) (hnew : sys.tree.lookup R name = none)
    (hout : ¬ e.path <+: R) :
    ∃ sys', rename false sys (absString e.path) (absString (R ++ [name])) = (true, sys') ∧
      rename false sys' (absString (R ++ [name])) (absString e.path) = (true, sys) := by
  have hp : e.path ≠ [] := List.concat_ne_nil _ _
  have hbelow : ¬ e.path <+: e.dir := by
    intro hpre
    have hlen := hpre.length_le
    simp only [Entry.path, List.length_append, List.length_singleton] at hlen
    omega
  have hmem := Tree.mem_relocate hp hdir hout hnew he
  rw [Entry.relocate, if_pos rfl] at hmem
  have hdir' := Tree.isDir_relocate hp hdir hout hnew (sys.tree.housed e he)
  rw [rebase_elsewhere hbelow] at hdir'
  have hnew' := Tree.lookup_relocate_old hp hdir hout hnew he rfl
  have hout' : ¬ (⟨R, name, e.node⟩ : Entry FileName).path <+: e.dir :=
    Tree.not_prefix_of_lookup_eq_none hnew (sys.tree.housed e he)
  refine ⟨sys.moved e R name hdir hout hnew, ?_, ?_⟩
  · rw [rename, renameCall_of_free he hdir hnew, moveEntry_of_free hdir hout hnew]
    rfl
  · have hcall : (sys.moved e R name hdir hout hnew).renameCall
        (absString (Entry.path ⟨R, name, e.node⟩)) (absString (e.dir ++ [e.name])) =
          (sys.moved e R name hdir hout hnew).moveEntry ⟨R, name, e.node⟩ e.dir e.name :=
      renameCall_of_free hmem hdir' hnew'
    have hmove : (sys.moved e R name hdir hout hnew).moveEntry ⟨R, name, e.node⟩ e.dir e.name =
        .ok _ := moveEntry_of_free hdir' hout' hnew'
    have hcwd : ¬ R ++ [name] <+: sys.cwd :=
      Tree.not_prefix_of_lookup_eq_none hnew sys.cwd_isDir
    have hback : (sys.moved e R name hdir hout hnew).moved ⟨R, name, e.node⟩ e.dir e.name
        hdir' hout' hnew' = sys :=
      System.eq_of (Tree.relocate_back hp hdir hout hnew he rfl (List.concat_ne_nil _ _) hdir'
        hout' hnew') rfl rfl (rebase_rebase hcwd) rfl
    rw [hmove, hback] at hcall
    show rename false _ (absString (Entry.path ⟨R, name, e.node⟩))
      (absString (e.dir ++ [e.name])) = _
    rw [rename, hcall]
    rfl

theorem rename_rename_back_linkedDir :
    ∃ sys', rename false linkedDir "/d".toList "/f".toList = (true, sys') ∧
      rename false sys' "/f".toList "/d".toList = (true, linkedDir) := by
  have he : (⟨[], ⟨['d'], isFileName_d⟩, .dir⟩ : Entry FileName) ∈ linkedDir.tree.entries := by
    decide
  have hdir : linkedDir.tree.IsDir [] := .inl rfl
  have hnew : linkedDir.tree.lookup [] ⟨['f'], isFileName_f⟩ = none := by decide
  exact rename_rename_back he hdir hnew (by decide)

end Rename

end Ffilesystem
