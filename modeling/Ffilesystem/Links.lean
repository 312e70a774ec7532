import Ffilesystem.CopyFile
import Ffilesystem.Meaning
import Ffilesystem.Symlink
import Ffilesystem.Touch

/-!
# Making, finding and removing links on POSIX systems

A link stands in the tree with its target as moves. Here the system also knows
the text that the target was written with, and the structure carries that the
two agree. `read_symlink` is the function that asks the system, call by call, so
the system answers with these texts and their lengths.

`lexists` takes two calls in one backend and one in the other. `create_symlink`
succeeds exactly where `lexists` says that nothing is there and the parent is a
directory. What it makes can be read back, hides nothing, and is gone without a
trace after `remove`.
-/

namespace Ffilesystem

open FileTree Lexical

/-- The target that the text of a link stands for. -/
def targetOf (text : Str) : Target FileName := ⟨isRooted text, trail text ++ endMove text⟩

structure LinkedSystem where
  sys : System
  /-- The text of the link that stands at a path. -/
  text : List FileName → CText
  spelled : ∀ e ∈ sys.tree.entries, ∀ target, e.node = .link target →
    target = targetOf (text e.path).1 ∧ (text e.path).1 ≠ []

/-- What kind of entry a walk has arrived at. -/
def spotNode : Spot FileName → Node FileName
  | .dir _ => .dir
  | .file _ _ ino => .file ino

namespace System

variable (sys : System)

/-- `lstat`: a link in last place is not followed, unless a slash is behind it. -/
def lstat (path : Str) : Except Errno (Node FileName) :=
  if endMove (cStr path) ≠ [] then (sys.stat path).map spotNode
  else
    match sys.locate path with
    | .ok (R, .down name) =>
        match sys.tree.lookup R name with
        | some e => .ok e.node
        | none => .error .noent
    | .ok _ => .ok .dir
    | .error e => .error e

/-- `symlink`, which follows no link in last place and makes nothing where
anything is. -/
def symlinkCall (refused : Bool) (target link : Str) : Except Errno System :=
  if cStr target = [] then .error .noent
  else
    match sys.locate link with
    | .ok (R, .down name) =>
        if h : sys.tree.lookup R name = none ∧ sys.tree.IsDir R then
          if endMove (cStr link) ≠ [] then .error .noent
          else if refused then .error .perm
          else .ok (sys.addEntry ⟨R, name, .link (targetOf (cStr target))⟩ h.2 h.1)
        else .error .exist
    | .ok _ => .error .exist
    | .error e => .error e

def createSymlink (refused : Bool) (target link : Str) : Bool × System :=
  if target.isEmpty || link.isEmpty then (false, sys)
  else
    match sys.symlinkCall refused target link with
    | .ok sys' => (true, sys')
    | .error _ => (false, sys)

end System

/-- `exists`: `access` with `F_OK` follows links. -/
def pathExists (sys : System) (path : Str) : Bool :=
  match sys.stat path with
  | .ok _ => true
  | .error _ => false

def isSymlink (sys : System) (path : Str) : Bool :=
  match sys.lstat path with
  | .ok (.link _) => true
  | _ => false

/-- `lexists`. The other backend looks at `symlink_status` alone. -/
def lexists (b : Backend) (sys : System) (path : Str) : Bool :=
  match b with
  | .c => pathExists sys path || isSymlink sys path
  | .cxxFilesystem =>
      match sys.lstat path with
      | .ok _ => true
      | .error _ => false

theorem System.symlinkCall_cases {refused : Bool} {sys sys' : System} {target link : Str}
    (h : sys.symlinkCall refused target link = .ok sys') :
    ∃ R name, cStr target ≠ [] ∧ refused = false ∧ endMove (cStr link) = [] ∧
      sys.locate link = .ok (R, .down name) ∧
      ∃ hfree : sys.tree.IsDir R ∧ sys.tree.lookup R name = none,
        sys' = sys.addEntry ⟨R, name, .link (targetOf (cStr target))⟩ hfree.1 hfree.2 := by
  rw [System.symlinkCall] at h
  split at h
  · cases h
  rename_i htarget
  split at h
  · rename_i R name hlocate
    split at h
    · rename_i hfree
      split at h
      · cases h
      rename_i hend
      split at h
      · cases h
      rename_i hrefused
      cases h
      exact ⟨R, name, htarget, Bool.eq_false_iff.mpr hrefused, Decidable.not_not.mp hend,
        hlocate, hfree.symm, rfl⟩
    · cases h
  · cases h
  · cases h

namespace LinkedSystem

/-- The texts, with one more where the last component of a path is. -/
def textWith (ls : LinkedSystem) (target link : Str) : List FileName → CText :=
  match ls.sys.locate link with
  | .ok (R, .down name) =>
      Function.update ls.text (R ++ [name]) ⟨cStr target, nul_not_mem_cStr target⟩
  | _ => ls.text

variable {ls : LinkedSystem} {target link : Str}

theorem textWith_of_locate {R : List FileName} {name : FileName}
    (h : ls.sys.locate link = .ok (R, .down name)) :
    ls.textWith target link =
      Function.update ls.text (R ++ [name]) ⟨cStr target, nul_not_mem_cStr target⟩ := by
  rw [textWith, h]

theorem spelled_textWith {refused : Bool} {sys' : System}
    (h : ls.sys.symlinkCall refused target link = .ok sys') :
    ∀ e ∈ sys'.tree.entries, ∀ target', e.node = .link target' →
      target' = targetOf (ls.textWith target link e.path).1 ∧
        (ls.textWith target link e.path).1 ≠ [] := by
  obtain ⟨R, name, htarget, -, -, hlocate, ⟨hdir, hnew⟩, rfl⟩ := System.symlinkCall_cases h
  intro e hmem target' hnode
  rw [textWith_of_locate hlocate]
  rcases List.mem_cons.mp hmem with rfl | hold
  · rw [Entry.path, Function.update_self]
    exact ⟨(Node.link.inj hnode).symm, htarget⟩
  · have hne : e.path ≠ R ++ [name] := by
      intro hpath
      obtain ⟨hdir', hname⟩ := List.append_inj' hpath rfl
      have hfind := Tree.lookup_self hold
      rw [hdir', List.singleton_inj.mp hname, hnew] at hfind
      cases hfind
    rw [Function.update_of_ne hne]
    exact ls.spelled e hold target' hnode

end LinkedSystem

/-- `symlink` with the text that it writes. -/
def symlinkCall (refused : Bool) (ls : LinkedSystem) (target link : Str) :
    Except Errno LinkedSystem :=
  match h : ls.sys.symlinkCall refused target link with
  | .ok sys' => .ok ⟨sys', ls.textWith target link, LinkedSystem.spelled_textWith h⟩
  | .error e => .error e

/-- `create_symlink` with the text that it writes. -/
def createSymlink (refused : Bool) (ls : LinkedSystem) (target link : Str) :
    Bool × LinkedSystem :=
  if target.isEmpty || link.isEmpty then (false, ls)
  else
    match symlinkCall refused ls target link with
    | .ok ls' => (true, ls')
    | .error _ => (false, ls)

/-- `remove` of either backend. -/
def remove (refused : Bool) (sys : System) (path : Str) : Bool × System :=
  match sys.removeCall path with
  | .ok sys' => if refused then (false, sys) else (true, sys')
  | .error _ => (false, sys)

/-- What the system answers about its links, with `env` for everything else. -/
def linkAnswers (env : OsEnv) (ls : LinkedSystem) : OsEnv :=
  let textAt (path : Str) : Option CText :=
    match ls.sys.locate path with
    | .ok (R, .down name) =>
        if isSymlink ls.sys path then
          (ls.sys.tree.lookup R name).map (fun e => ls.text e.path)
        else none
    | _ => none
  { env with
    linkSize := fun path => (textAt path).map (fun text => text.1.length)
    readlink := textAt }

def linkedDirTexts : LinkedSystem where
  sys := linkedDir
  text := fun _ => ⟨['d'], by decide⟩
  spelled := by
    intro e hmem target hnode
    simp only [linkedDir, List.mem_cons, List.not_mem_nil, or_false] at hmem
    obtain rfl | rfl | rfl := hmem
    · cases hnode
    · cases hnode
    · cases hnode
      exact ⟨by decide, by decide⟩

section Lexists

variable {sys : System} {path : Str}

/-- A path that names something has its last component looked up in a directory. -/
theorem exists_locate_of_stat {spot : Spot FileName} (h : sys.stat path = .ok spot) :
    ∃ R last, sys.locate path = .ok (R, last) ∧
      ∃ left, (sys.tree.walk left (.dir R) [last]).map Prod.snd = .ok spot := by
  obtain ⟨hne, -⟩ := System.stat_eq_ok h
  obtain ⟨left, hwalk⟩ := (System.walkFrom_trail_of_stat h).1
  by_cases htrail : trail (cStr path) = []
  · rw [htrail, System.walkFrom, Tree.walk_nil] at hwalk
    cases hwalk
    refine ⟨sys.origin (cStr path), .stay, ?_, sys.maxLinks, ?_⟩
    · simp only [System.locate, if_neg hne, htrail, System.walkFrom, List.dropLast_nil,
        Tree.walk_nil]
      rfl
    · rw [Tree.walk_stay_cons, Tree.walk_nil]
      rfl
  · obtain ⟨front, last, hcut⟩ := (List.eq_nil_or_concat' _).resolve_left htrail
    rw [hcut] at hwalk
    obtain ⟨left', s, hfront, hlast⟩ := Tree.exists_walk_of_append hwalk
    cases s with
    | file D name ino =>
        rw [Tree.walk_file_cons] at hlast
        cases hlast
    | dir D =>
        refine ⟨D, last, ?_, left', by rw [hlast]; rfl⟩
        have hfront' : sys.walkFrom (cStr path) (trail (cStr path)).dropLast =
            .ok (left', .dir D) := by
          rw [hcut, List.dropLast_concat]
          exact hfront
        simp only [System.locate, if_neg hne, hfront']
        rw [hcut, List.getLast?_concat]
        rfl

/-- What is there when links are followed is there when they are not. -/
theorem exists_lstat_of_stat {spot : Spot FileName} (h : sys.stat path = .ok spot) :
    ∃ node, sys.lstat path = .ok node := by
  rw [System.lstat]
  split
  · exact ⟨spotNode spot, by rw [h]; rfl⟩
  · obtain ⟨R, last, hlocate, left, hlast⟩ := exists_locate_of_stat h
    rw [hlocate]
    cases last with
    | stay => exact ⟨.dir, rfl⟩
    | up => exact ⟨.dir, rfl⟩
    | down name =>
        dsimp only
        cases hfind : sys.tree.lookup R name with
        | some e => exact ⟨e.node, rfl⟩
        | none =>
            rw [Tree.walk_down_of_none hfind] at hlast
            cases hlast

/-- The last component leads on from the directory it is looked up in. -/
theorem stat_of_locate {R : List FileName} {last : Move FileName} {spot : Spot FileName}
    (hend : endMove (cStr path) = []) (hlocate : sys.locate path = .ok (R, last))
    (hlast : ∀ b, sys.tree.walk b (.dir R) [last] = .ok (b, spot)) :
    sys.stat path = .ok spot := by
  obtain ⟨hne, hget, left, hwalk⟩ := System.locate_eq_ok hlocate
  apply System.stat_of_walkFrom left hne
  rw [hend, List.append_nil]
  by_cases htrail : trail (cStr path) = []
  · rw [htrail, List.dropLast_nil] at hwalk
    rw [htrail] at hget ⊢
    rw [hwalk]
    obtain rfl : last = .stay := hget
    have hstay := hlast left
    rw [Tree.walk_stay_cons, Tree.walk_nil] at hstay
    exact hstay
  · obtain ⟨front, last', hcut⟩ := (List.eq_nil_or_concat' _).resolve_left htrail
    rw [hcut, List.getLast?_concat] at hget
    obtain rfl : last = last' := hget
    rw [hcut, List.dropLast_concat] at hwalk
    rw [hcut, System.walkFrom, Tree.walk_append_of_ok hwalk]
    exact hlast left

/-- What is there and is no link is there when links are followed. -/
theorem exists_stat_of_lstat {node : Node FileName} (h : sys.lstat path = .ok node)
    (hlink : ∀ target, node ≠ .link target) : ∃ spot, sys.stat path = .ok spot := by
  rw [System.lstat] at h
  split at h
  · cases hstat : sys.stat path with
    | ok spot => exact ⟨spot, rfl⟩
    | error e =>
        rw [hstat] at h
        cases h
  · rename_i hend
    rw [ne_eq, not_not] at hend
    split at h
    · rename_i R name hlocate
      split at h
      · rename_i e hfind
        cases h
        cases hnode : e.node with
        | dir =>
            refine ⟨.dir e.path, stat_of_locate hend hlocate fun b => ?_⟩
            rw [Tree.walk_down_of_dir hfind hnode, Tree.walk_nil]
        | file ino =>
            refine ⟨.file R e.name ino, stat_of_locate hend hlocate fun b => ?_⟩
            rw [Tree.walk_down_of_file hfind hnode, Tree.walk_nil]
        | link target => exact absurd hnode (hlink target)
      · cases h
    · rename_i r hdown hlocate
      obtain ⟨R, last⟩ := r
      cases last with
      | stay =>
          refine ⟨.dir R, stat_of_locate hend hlocate fun b => ?_⟩
          rw [Tree.walk_stay_cons, Tree.walk_nil]
      | up =>
          refine ⟨.dir R.dropLast, stat_of_locate hend hlocate fun b => ?_⟩
          rw [Tree.walk_up_cons, Tree.walk_nil]
      | down name => exact absurd rfl (hdown R name)
    · cases h

theorem isSymlink_eq_true_iff : isSymlink sys path = true ↔
    ∃ target, sys.lstat path = .ok (.link target) := by
  rw [isSymlink]
  constructor
  · intro h
    split at h
    · rename_i target hlstat
      exact ⟨target, hlstat⟩
    · cases h
  · rintro ⟨target, hlstat⟩
    rw [hlstat]

theorem pathExists_eq_true_iff : pathExists sys path = true ↔
    ∃ spot, sys.stat path = .ok spot := by
  rw [pathExists]
  constructor
  · intro h
    split at h
    · rename_i spot hstat
      exact ⟨spot, hstat⟩
    · cases h
  · rintro ⟨spot, hstat⟩
    rw [hstat]

/-- Either backend finds just what `lstat` finds: a path that leads somewhere, or
a link that leads nowhere. -/
theorem lexists_eq_true_iff (b : Backend) : lexists b sys path = true ↔
    ∃ node, sys.lstat path = .ok node := by
  cases b with
  | c =>
      rw [lexists, Bool.or_eq_true, pathExists_eq_true_iff, isSymlink_eq_true_iff]
      constructor
      · rintro (⟨spot, hstat⟩ | ⟨target, hlstat⟩)
        · exact exists_lstat_of_stat hstat
        · exact ⟨_, hlstat⟩
      · rintro ⟨node, hlstat⟩
        cases node with
        | dir => exact .inl (exists_stat_of_lstat hlstat fun _ h => by cases h)
        | file ino => exact .inl (exists_stat_of_lstat hlstat fun _ h => by cases h)
        | link target => exact .inr ⟨target, hlstat⟩
  | cxxFilesystem =>
      rw [lexists]
      constructor
      · intro h
        split at h
        · rename_i node hlstat
          exact ⟨node, hlstat⟩
        · cases h
      · rintro ⟨node, hlstat⟩
        rw [hlstat]

/-- The two backends agree about what is there, links that lead nowhere or in
circles included. -/
theorem lexists_backends (sys : System) (path : Str) :
    lexists .c sys path = lexists .cxxFilesystem sys path :=
  Bool.eq_iff_iff.mpr ((lexists_eq_true_iff .c).trans (lexists_eq_true_iff .cxxFilesystem).symm)

end Lexists

section Create

variable {refused : Bool} {sys : System} {ls ls' : LinkedSystem} {target link : Str}

theorem symlinkCall_sys (refused : Bool) (ls : LinkedSystem) (target link : Str) :
    (symlinkCall refused ls target link).map LinkedSystem.sys =
      ls.sys.symlinkCall refused target link := by
  rw [symlinkCall]
  split
  · rename_i sys' hcall
    exact hcall.symm
  · rename_i e hcall
    exact hcall.symm

/-- Making a link with its text makes it in the tree. -/
theorem createSymlink_sys (refused : Bool) (ls : LinkedSystem) (target link : Str) :
    (createSymlink refused ls target link).map id LinkedSystem.sys =
      ls.sys.createSymlink refused target link := by
  rw [createSymlink, System.createSymlink, ← symlinkCall_sys]
  split
  · rfl
  · cases symlinkCall refused ls target link with
    | ok ls' => rfl
    | error e => rfl

theorem createSymlink_cases (h : createSymlink refused ls target link = (true, ls')) :
    ∃ R name, cStr target ≠ [] ∧ refused = false ∧ endMove (cStr link) = [] ∧
      ls.sys.locate link = .ok (R, .down name) ∧
      ∃ hfree : ls.sys.tree.IsDir R ∧ ls.sys.tree.lookup R name = none,
        ls'.sys = ls.sys.addEntry ⟨R, name, .link (targetOf (cStr target))⟩ hfree.1 hfree.2 ∧
        ls'.text (R ++ [name]) = ⟨cStr target, nul_not_mem_cStr target⟩ := by
  rw [createSymlink] at h
  split at h
  · cases h
  split at h
  · rename_i made hmade
    cases h
    rw [symlinkCall] at hmade
    split at hmade
    · rename_i sys' hcall
      cases hmade
      obtain ⟨R, name, htarget, hrefused, hend, hlocate, hfree, hsys⟩ :=
        System.symlinkCall_cases hcall
      refine ⟨R, name, htarget, hrefused, hend, hlocate, hfree, hsys, ?_⟩
      show ls.textWith target link (R ++ [name]) = _
      rw [LinkedSystem.textWith_of_locate hlocate, Function.update_self]
    · cases hmade
  · cases h

/-- A link is made where the parent is a directory, nothing has the name, and
nothing but the name is asked for. -/
theorem createSymlink_iff (b b' : Backend) (hnul : '\x00' ∉ link) :
    (sys.createSymlink refused target link).1 = true ↔
      cStr target ≠ [] ∧ link ≠ [] ∧ refused = false ∧ endMove link = [] ∧
        (∃ R, sys.stat (parent b link) = .ok (.dir R)) ∧ lexists b' sys link = false := by
  have hcstr := cStr_of_not_mem hnul
  constructor
  · intro h
    rw [System.createSymlink] at h
    split at h
    · cases h
    split at h
    · rename_i sys' hcall
      obtain ⟨R, name, htarget, hrefused, hend, hlocate, ⟨hdir, hnone⟩, -⟩ :=
        System.symlinkCall_cases hcall
      have hne : link ≠ [] := by
        have hlink := (System.locate_eq_ok hlocate).1
        rwa [hcstr] at hlink
      refine ⟨htarget, hne, hrefused, hcstr ▸ hend,
        ⟨R, (stat_parent_iff_locate b sys hne hnul R).mpr ⟨_, hlocate⟩⟩, ?_⟩
      rw [Bool.eq_false_iff, ne_eq, lexists_eq_true_iff]
      rintro ⟨node, hlstat⟩
      rw [System.lstat, if_neg (not_not.mpr hend), hlocate] at hlstat
      dsimp only at hlstat
      rw [hnone] at hlstat
      cases hlstat
    · cases h
  · rintro ⟨htarget, hne, hrefused, hend, ⟨R, hparent⟩, hfree⟩
    obtain ⟨last, hlocate⟩ := (stat_parent_iff_locate b sys hne hnul R).mp hparent
    have hlast : endMove (cStr link) = [] := by rw [hcstr, hend]
    rw [Bool.eq_false_iff, ne_eq, lexists_eq_true_iff, System.lstat,
      if_neg (not_not.mpr hlast), hlocate] at hfree
    have htargetne : target ≠ [] := by
      rintro rfl
      exact htarget rfl
    cases last with
    | stay => exact absurd ⟨.dir, rfl⟩ hfree
    | up => exact absurd ⟨.dir, rfl⟩ hfree
    | down name =>
        dsimp only at hfree
        have hnone : sys.tree.lookup R name = none := by
          cases hfind : sys.tree.lookup R name with
          | none => rfl
          | some e =>
              rw [hfind] at hfree
              exact absurd ⟨e.node, rfl⟩ hfree
        have hdir : sys.tree.IsDir R := by
          exact System.stat_stands hparent
        rw [System.createSymlink, if_neg (by simp [htargetne, hne]), System.symlinkCall,
          if_neg htarget]
        simp only [hlocate, dif_pos (And.intro hnone hdir)]
        rw [hcstr, if_neg (not_not.mpr hend), hrefused]
        rfl

theorem createSymlink_dangling :
    (linkedDir.createSymlink false "no/where".toList "d/new".toList).1 = true ↔
      cStr "no/where".toList ≠ [] ∧ "d/new".toList ≠ [] ∧ false = false ∧
        endMove "d/new".toList = [] ∧
        (∃ R, linkedDir.stat (parent .c "d/new".toList) = .ok (.dir R)) ∧
        lexists .cxxFilesystem linkedDir "d/new".toList = false :=
  createSymlink_iff .c .cxxFilesystem (by decide)

end Create

section Read

variable {ls : LinkedSystem} {link : Str}

theorem exists_text_of_isSymlink (h : isSymlink ls.sys link = true) :
    ∃ R name e, endMove (cStr link) = [] ∧ ls.sys.locate link = .ok (R, .down name) ∧
      ls.sys.tree.lookup R name = some e ∧ e.node = .link (targetOf (ls.text e.path).1) ∧
      (ls.text e.path).1 ≠ [] := by
  obtain ⟨target, hlstat⟩ := isSymlink_eq_true_iff.mp h
  rw [System.lstat] at hlstat
  split at hlstat
  · cases hstat : ls.sys.stat link with
    | error e =>
        rw [hstat] at hlstat
        cases hlstat
    | ok spot =>
        rw [hstat] at hlstat
        cases spot with
        | dir R => cases hlstat
        | file R name ino => cases hlstat
  · rename_i hend
    split at hlstat
    · rename_i R name hlocate
      split at hlstat
      · rename_i e hfind
        have hnode : e.node = .link target := Except.ok.inj hlstat
        obtain ⟨htext, hne⟩ := ls.spelled e (Tree.lookup_eq_some_iff.mp hfind).1 target hnode
        exact ⟨R, name, e, Decidable.not_not.mp hend, hlocate, hfind, htext ▸ hnode, hne⟩
      · cases hlstat
    · cases hlstat
    · cases hlstat

theorem locate_cStr (sys : System) (path : Str) : sys.locate (cStr path) = sys.locate path := by
  simp only [System.locate, cStr_of_not_mem (nul_not_mem_cStr path)]

theorem isSymlink_cStr (sys : System) (path : Str) :
    isSymlink sys (cStr path) = isSymlink sys path := by
  rw [isSymlink, isSymlink, System.lstat, System.lstat, stat_cStr, locate_cStr,
    cStr_of_not_mem (nul_not_mem_cStr path)]

theorem readSymlink_linkAnswers (env : OsEnv) (h : isSymlink ls.sys link = true) {R : List FileName}
    {name : FileName} {e : Entry FileName} (hlocate : ls.sys.locate link = .ok (R, .down name))
    (hfind : ls.sys.tree.lookup R name = some e) (hne : (ls.text e.path).1 ≠ []) :
    (linkAnswers env ls).readSymlink link = (ls.text e.path).1 := by
  have htext : (linkAnswers env ls).readlink (cStr link) = some (ls.text e.path) := by
    simp only [linkAnswers, locate_cStr, isSymlink_cStr, hlocate, h, if_true, hfind]
    rfl
  have hsize : (linkAnswers env ls).linkSize (cStr link) = some (ls.text e.path).1.length := by
    simp only [linkAnswers, locate_cStr, isSymlink_cStr, hlocate, h, if_true, hfind]
    rfl
  have hpos : (ls.text e.path).1.length ≠ 0 := fun hzero => hne (List.length_eq_zero_iff.mp hzero)
  rw [OsEnv.readSymlink, hsize]
  dsimp only
  rw [htext, if_neg hpos]
  dsimp only
  have hmin : min (ls.text e.path).1.length ((ls.text e.path).1.length + 1) =
      (ls.text e.path).1.length := Nat.min_eq_left (Nat.le_succ _)
  rw [hmin, if_pos rfl, take_unterminatedIn (Nat.le_refl _) (Nat.le_succ _), List.take_length]

/-- The parent leads to the directory with the same budget that the system looks
the last component up with. -/
theorem walkFrom_parent (b : Backend) {sys : System} {path : Str} {R : List FileName} {left : Nat}
    (hne : path ≠ []) (hnul : '\x00' ∉ path)
    (hwalk : sys.walkFrom path (trail path).dropLast = .ok (left, .dir R)) :
    sys.walkFrom (parent b path) (trail (parent b path)) = .ok (left, .dir R) := by
  obtain ⟨hroot, hleads⟩ := leadsAlike_parent b hne hnul
  rw [System.walkFrom, System.origin, ← hroot, ← hleads] at hwalk
  obtain ⟨left', s, hfront, hend⟩ := Tree.exists_walk_of_append hwalk
  have hsame : (.ok (left', s) : Except (Stop FileName) (Nat × Spot FileName)) =
      .ok (left, .dir R) := by
    rw [endMove] at hend
    split at hend
    · cases s with
      | dir D => rwa [Tree.walk_stay_cons, Tree.walk_nil] at hend
      | file D name ino =>
          rw [Tree.walk_file_cons] at hend
          cases hend
    · rwa [Tree.walk_nil] at hend
  rw [← hsame]
  exact hfront

/-- Reading a link and joining its text to the parent leads where the link leads:
the link itself only costs one more step of the budget. -/
theorem stat_join_readSymlink (b : Backend) (env : OsEnv) (hnul : '\x00' ∉ link)
    (h : isSymlink ls.sys link = true) :
    ls.sys.stat link =
        ls.sys.stat (joinOf b (parent b link) ((linkAnswers env ls).readSymlink link)) ∨
      ls.sys.stat link = .error .loop := by
  obtain ⟨R, name, e, hend, hlocate, hfind, hnode, htext⟩ := exists_text_of_isSymlink h
  rw [readSymlink_linkAnswers env h hlocate hfind htext, System.stat_joinOf]
  obtain ⟨hne, -, left, hwalk⟩ := System.locate_eq_ok hlocate
  have hstat : ls.sys.walkFrom (cStr link) (trail (cStr link) ++ endMove (cStr link)) =
      ls.sys.tree.walk left (.dir R) [.down name] := by
    rw [hend, List.append_nil, System.trail_of_locate hlocate, System.walkFrom]
    exact Tree.walk_append_of_ok hwalk _
  generalize ls.text e.path = text at hnode htext
  cases left with
  | zero =>
      right
      exact System.stat_of_walkFrom_error .loop hne
        (hstat.trans (Tree.walk_down_of_link_zero hfind hnode []))
  | succ left =>
      have hcstr : cStr text.1 = text.1 := cStr_of_not_mem text.2
      rw [Tree.walk_down_of_link_succ hfind hnode, List.append_nil] at hstat
      by_cases hloop : ls.sys.tree.walk left (.dir (if (targetOf text.1).rooted then [] else R))
          (targetOf text.1).moves = .error .loop
      · right
        exact System.stat_of_walkFrom_error _ hne (hstat.trans hloop)
      · left
        have htextne : cStr text.1 ≠ [] := by rwa [hcstr]
        cases hroot : isRooted text.1 with
        | true =>
            -- the text starts over at the root
            have hmoves : (targetOf text.1).rooted = true := hroot
            have horigin : ls.sys.origin text.1 = [] := if_pos hroot
            rw [stdJoin_of_rooted hroot]
            apply stat_congr hne htextne
            have hle := Nat.le_of_succ_le (Tree.walk_left_le hwalk)
            obtain ⟨k, hk⟩ := Nat.exists_eq_add_of_le hle
            rw [hmoves, if_pos rfl] at hstat hloop
            rw [hstat, hcstr, System.walkFrom, horigin, hk]
            exact (Tree.walk_budget hloop k).symm
        | false =>
            have hmoves : (targetOf text.1).rooted = false := hroot
            have hlink : link ≠ [] := by
              rw [← cStr_of_not_mem hnul]
              exact hne
            rw [cStr_of_not_mem hnul] at hwalk
            have hparent := walkFrom_parent b hlink hnul hwalk
            have hpnul := nul_not_mem_parent b hlink hnul
            apply stat_congr hne (cStr_stdJoin_ne_nil hpnul htextne)
            rw [hmoves, if_neg Bool.false_ne_true] at hstat hloop
            rw [hstat, walkFrom_joined hpnul (parent_ne_nil b link) hroot htextne hparent, hcstr]
            exact (Tree.walk_budget hloop 1).symm

theorem stat_join_readSymlink_linkedDir :
    linkedDirTexts.sys.stat "l".toList =
        linkedDirTexts.sys.stat (joinOf .c (parent .c "l".toList)
          ((linkAnswers OsEnv.linksToBin linkedDirTexts).readSymlink "l".toList)) ∨
      linkedDirTexts.sys.stat "l".toList = .error .loop :=
  stat_join_readSymlink .c OsEnv.linksToBin (by decide) (by decide +kernel)

end Read

section RoundTrip

variable {refused : Bool} {ls ls' : LinkedSystem} {target link : Str}

theorem System.eq_of {sys sys' : System} (htree : sys.tree = sys'.tree)
    (hdata : sys.data = sys'.data) (hspecials : sys.specials = sys'.specials)
    (hcwd : sys.cwd = sys'.cwd) (hmax : sys.maxLinks = sys'.maxLinks) : sys = sys' := by
  cases sys
  cases sys'
  cases htree
  cases hdata
  cases hspecials
  cases hcwd
  cases hmax
  rfl

theorem System.removeEntry_addEntry {sys : System} {e : Entry FileName}
    (hdir : sys.tree.IsDir e.dir) (hnew : sys.tree.lookup e.dir e.name = none) :
    (sys.addEntry e hdir hnew).removeEntry e = .ok sys := by
  have hempty : ∀ e' ∈ (sys.addEntry e hdir hnew).tree.entries, e'.dir ≠ e.path := by
    intro e' hmem heq
    have hnone : ¬ sys.tree.IsDir e.path := by
      intro hpath
      have hfind := (Tree.IsDir.exists_lookup hpath).2
      rw [hnew] at hfind
      cases hfind
    rcases List.mem_cons.mp hmem with rfl | hold
    · have hlen := congrArg List.length heq
      simp [Entry.path] at hlen
    · exact hnone (heq ▸ sys.tree.housed e' hold)
  have htree := Tree.remove_add hdir hnew hempty
  have hcwd : ((sys.addEntry e hdir hnew).tree.remove e hempty).IsDir
      (sys.addEntry e hdir hnew).cwd := htree ▸ sys.cwd_isDir
  rw [System.removeEntry, dif_pos hempty, dif_pos hcwd]
  exact congrArg Except.ok (System.eq_of htree rfl rfl rfl rfl)

theorem System.Grows.locate {sys sys' : System} (h : sys.Grows sys') {path : Str}
    {R : List FileName} {last : Move FileName} (hlocate : sys.locate path = .ok (R, last)) :
    sys'.locate path = .ok (R, last) := by
  obtain ⟨hne, hlast, left, hwalk⟩ := System.locate_eq_ok hlocate
  simp only [System.locate, if_neg hne, h.walkFrom hwalk, hlast]

/-- A link that was made is one, reads as its target, leaves everything that had
a name as it was, and is taken back by `remove`. -/
theorem createSymlink_then (h : createSymlink refused ls target link = (true, ls'))
    (env : OsEnv) :
    isSymlink ls'.sys link = true ∧ (linkAnswers env ls').readSymlink link = cStr target ∧
      (∀ path spot, ls.sys.stat path = .ok spot → ls'.sys.stat path = .ok spot) ∧
      ls'.sys.data = ls.sys.data ∧ remove false ls'.sys link = (true, ls.sys) := by
  obtain ⟨R, name, htarget, -, hend, hlocate, ⟨hdir, hnew⟩, hsys, htext⟩ := createSymlink_cases h
  have hgrows : ls.sys.Grows ls'.sys := by
    rw [hsys]
    exact System.grows_addEntry hdir hnew
  have hlocate' := hgrows.locate hlocate
  have hfind : ls'.sys.tree.lookup R name =
      some ⟨R, name, .link (targetOf (cStr target))⟩ := by
    rw [hsys]
    exact Tree.lookup_add_self hdir hnew
  have hlink : isSymlink ls'.sys link = true := by
    rw [isSymlink_eq_true_iff]
    refine ⟨targetOf (cStr target), ?_⟩
    rw [System.lstat, if_neg (not_not.mpr hend), hlocate']
    dsimp only
    rw [hfind]
  refine ⟨hlink, ?_, fun path spot => hgrows.stat, by rw [hsys]; rfl, ?_⟩
  · rw [readSymlink_linkAnswers env hlink hlocate' hfind (by rw [Entry.path, htext]; exact htarget),
      Entry.path, htext]
  · have hremove : ls'.sys.removeEntry ⟨R, name, .link (targetOf (cStr target))⟩ = .ok ls.sys := by
      rw [hsys]
      exact System.removeEntry_addEntry hdir hnew
    rw [remove, System.removeCall, hlocate']
    dsimp only
    rw [hfind]
    dsimp only
    rw [if_neg (fun hslash => hslash.1 hend), hremove]
    rfl

theorem createSymlink_then_dangling :
    let ls' := (createSymlink false linkedDirTexts "no/where".toList "l/new".toList).2
    isSymlink ls'.sys "l/new".toList = true ∧
      (linkAnswers OsEnv.linksToBin ls').readSymlink "l/new".toList = cStr "no/where".toList ∧
      (∀ path spot, linkedDirTexts.sys.stat path = .ok spot → ls'.sys.stat path = .ok spot) ∧
      ls'.sys.data = linkedDirTexts.sys.data ∧
      remove false ls'.sys "l/new".toList = (true, linkedDirTexts.sys) :=
  createSymlink_then (Prod.ext (by decide +kernel) rfl) OsEnv.linksToBin

end RoundTrip

end Ffilesystem
