import Ffilesystem.Pure
import Ffilesystem.Touch

/-!
# The probe for case sensitivity

`is_case_sensitive` creates a file with a mixed-case random name in a directory,
asks whether the lower-cased name leads to the same file, and removes the file
when it returns. It returns the answer to that question, which is yes on a file
system that ignores case.

Which names are equal is the `fold` of the tree: the identity where lookup is
exact, and `lowerName` where it ignores the case of ASCII letters.
-/

namespace Ffilesystem

open FileTree Lexical

/-- `std::tolower` in the default locale. -/
def asciiLowerChar (c : Char) : Char :=
  if 65 ≤ c.toNat ∧ c.toNat ≤ 90 then Char.ofNat (c.toNat + 32) else c

def asciiLower (s : Str) : Str := s.map asciiLowerChar

/-- The rights of the caller, the outcomes of the calls, and the random name. -/
structure ProbeEnv extends TouchEnv where
  remove : Option Errno
  random : Str

def mixedPrefix : Str := ".FfilesystemCaseSensitiveCheck_".toList

def mixedName (rname : Str) : Str := mixedPrefix ++ rname

/-- The destructor of `fs_remove_on_exit`. -/
def removeOnExit (env : ProbeEnv) (sys : System) (path : Str) : System :=
  if path.isEmpty || env.remove.isSome then sys
  else
    match sys.removeCall path with
    | .ok sys => sys
    | .error _ => sys

def isCaseSensitive (b : Backend) (env : ProbeEnv) (sys : System) (path : Str) : Bool × System :=
  if path.isEmpty || !sys.isDirectory path then (false, sys)
  else
    let rname := env.random
    if rname.isEmpty then (false, sys)
    else
      let mixedPath := joinOf b path (mixedName rname)
      match touch b env.toTouchEnv sys (.ofStr mixedPath) with
      | (false, sys) => (false, sys)
      | (true, sys) =>
          let lowerPath := joinOf b path (asciiLower (mixedName rname))
          (sys.equivalent mixedPath lowerPath, removeOnExit env sys mixedPath)

section Lowering

theorem toNat_asciiLowerChar (c : Char) :
    (asciiLowerChar c).toNat = if 65 ≤ c.toNat ∧ c.toNat ≤ 90 then c.toNat + 32 else c.toNat := by
  rw [asciiLowerChar]
  split
  · have hvalid : (c.toNat + 32).isValidChar := .inl (by omega)
    rw [Char.ofNat, dif_pos hvalid]
    rfl
  · rfl

/-- Only letters are changed, and they become letters. -/
theorem eq_of_asciiLowerChar_eq {c d : Char} (hd : d.toNat < 65) (h : asciiLowerChar c = d) :
    c = d := by
  have hnat := toNat_asciiLowerChar c
  rw [h] at hnat
  apply Char.toNat_inj.mp
  split at hnat <;> omega

theorem asciiLowerChar_idem (c : Char) : asciiLowerChar (asciiLowerChar c) = asciiLowerChar c := by
  apply Char.toNat_inj.mp
  rw [toNat_asciiLowerChar, toNat_asciiLowerChar]
  split
  · rw [if_neg (by omega)]
  · rfl

theorem asciiLower_idem (s : Str) : asciiLower (asciiLower s) = asciiLower s := by
  rw [asciiLower, asciiLower, List.map_map]
  exact List.map_congr_left fun c _ => asciiLowerChar_idem c

/-- A text without letters comes from itself only. -/
theorem eq_of_asciiLower_eq {s t : Str} (ht : ∀ d ∈ t, d.toNat < 65) (h : asciiLower s = t) :
    s = t := by
  subst h
  refine (List.map_id s).symm.trans (List.map_congr_left ?_)
  intro c hc
  exact eq_of_asciiLowerChar_eq (ht _ (List.mem_map_of_mem hc)) rfl

theorem mem_of_mem_asciiLower {s : Str} {d : Char} (hd : d.toNat < 65) (h : d ∈ asciiLower s) :
    d ∈ s := by
  obtain ⟨c, hc, hcd⟩ := List.mem_map.mp h
  exact eq_of_asciiLowerChar_eq hd hcd ▸ hc

theorem isFileName_asciiLower {s : Str} (h : IsFileName s) : IsFileName (asciiLower s) := by
  obtain ⟨⟨hne, hdot, hdotdot, hslash⟩, hnul⟩ := h
  refine ⟨⟨?_, ?_, ?_, ?_⟩, ?_⟩
  · exact fun heq => hne (List.map_eq_nil_iff.mp heq)
  · exact fun heq => hdot (eq_of_asciiLower_eq (by simp [dot]) heq)
  · exact fun heq => hdotdot (eq_of_asciiLower_eq (by simp [dotdot]) heq)
  · exact fun hmem => hslash (mem_of_mem_asciiLower (by decide) hmem)
  · exact fun hmem => hnul (mem_of_mem_asciiLower (by decide) hmem)

/-- The fold of a lookup that ignores the case of ASCII letters. -/
def lowerName (name : FileName) : FileName :=
  ⟨asciiLower name.1, isFileName_asciiLower name.2⟩

theorem lowerName_eq_iff {a b : FileName} :
    lowerName a = lowerName b ↔ asciiLower a.1 = asciiLower b.1 := Subtype.ext_iff

end Lowering

section Probe

variable {sys : System}

theorem mixedName_eq_cons (rname : Str) :
    mixedName rname = '.' :: 'F' :: 'f' :: (mixedPrefix.drop 3 ++ rname) := by
  have hfront : mixedPrefix = '.' :: 'F' :: 'f' :: mixedPrefix.drop 3 := by decide
  rw [mixedName, hfront]
  rfl

theorem isFileName_mixedName {rname : Str} (h : ∀ c ∈ rname, c.isAlphanum = true) :
    IsFileName (mixedName rname) := by
  have hnot : ∀ c, c.isAlphanum = false → c ∉ mixedPrefix → c ∉ mixedName rname := by
    intro c hc hfront hmem
    cases List.mem_append.mp hmem with
    | inl hmem => exact hfront hmem
    | inr hmem =>
        rw [h c hmem] at hc
        cases hc
  refine ⟨⟨?_, ?_, ?_, hnot '/' (by decide) (by decide)⟩, hnot '\x00' (by decide) (by decide)⟩
  · rw [mixedName_eq_cons]
    exact List.cons_ne_nil _ _
  · rw [mixedName_eq_cons, dot]
    simp
  · rw [mixedName_eq_cons, dotdot]
    simp

/-- The two names of the probe are different texts. -/
theorem asciiLower_mixedName_ne (rname : Str) : asciiLower (mixedName rname) ≠ mixedName rname := by
  rw [mixedName_eq_cons]
  intro heq
  have hsecond := (List.cons.inj (List.cons.inj heq).2).1
  exact absurd hsecond (by decide)

variable {b : Backend} {path : Str} {R : List FileName}

/-- A name joined to a path is one more component of it. -/
theorem stdJoin_name {path : Str} (hpath : path ≠ []) (name : FileName) :
    ∃ front, stdJoin path name.1 = front ++ name.1 ∧ isRooted (front ++ name.1) = isRooted path ∧
      trail (front ++ name.1) = trail path ++ [.down name] ∧
      ∀ c ∈ front, c ∈ path ∨ c = '/' := by
  have hhead : name.1.head? ≠ some '/' := fun h => name.2.1.2.2.2 (List.mem_of_head? h)
  obtain ⟨c, rest, rfl⟩ := List.exists_cons_of_ne_nil hpath
  rw [stdJoin, if_neg hhead]
  split
  · refine ⟨c :: rest ++ ['/'], by simp, rfl, ?_, ?_⟩
    · rw [List.append_assoc, List.singleton_append, trail_append_slash, trail_name]
    · intro d hd
      simpa [or_assoc] using hd
  · rename_i hlast
    have hslash : (c :: rest).getLast? = some '/' := by simpa using hlast
    obtain ⟨front, hfront⟩ := List.getLast?_eq_some_iff.mp hslash
    refine ⟨c :: rest, rfl, rfl, ?_, fun d hd => .inl hd⟩
    rw [hfront, List.append_assoc, List.singleton_append, trail_append_slash, trail_name,
      trail_append_slash, trail_nil, List.append_nil]

theorem joinOf_name (b : Backend) {path : Str} (hpath : path ≠ []) (name : FileName) :
    ∃ front, joinOf b path name.1 = front ++ name.1 ∧ isRooted (front ++ name.1) = isRooted path ∧
      trail (front ++ name.1) = trail path ++ [.down name] ∧
      ∀ c ∈ front, c ∈ path ∨ c = '/' := by
  obtain ⟨front, hjoin, hrooted, htrail, hmem⟩ := stdJoin_name hpath name
  cases b with
  | c => exact ⟨front, (join_posix _ _).trans hjoin, hrooted, htrail, hmem⟩
  | cxxFilesystem =>
      -- the name stays, and runs in front of it shrink
      have hslash : '/' ∉ name.1 := name.2.1.2.2.2
      have hname : genericString (front ++ name.1) = genericString front ++ name.1 := by
        rw [genericString, Scan.squeeze_append _ (fun h => hslash (List.mem_of_head? h)),
          Scan.squeeze_of_not_mem hslash, genericString]
      refine ⟨genericString front, ?_, ?_, ?_, fun c hc => hmem c (Scan.mem_squeeze.mp hc)⟩
      · rw [joinOf, hjoin, hname]
      · rw [← hname, isRooted_genericString, hrooted]
      · rw [← hname, trail_genericString, htrail]

/-- Where a name in a directory leads, in this system and in every larger one. -/
theorem walkFrom_joinOf (b : Backend) (hnul : '\x00' ∉ path) (hdir : sys.stat path = .ok (.dir R))
    (name : FileName) :
    cStr (joinOf b path name.1) = joinOf b path name.1 ∧ joinOf b path name.1 ≠ [] ∧
      endMove (joinOf b path name.1) = [] ∧
      (∃ front, trail (joinOf b path name.1) = front ++ [.down name] ∧
        ∃ left, ∀ sys', sys.Grows sys' →
          sys'.walkFrom (joinOf b path name.1) front = .ok (left, .dir R)) := by
  have hcstr := cStr_of_not_mem hnul
  have hne : path ≠ [] := by
    obtain ⟨hne, -⟩ := System.stat_eq_ok hdir
    rwa [hcstr] at hne
  obtain ⟨front, hjoin, hrooted, htrail, hmem⟩ := joinOf_name b hne name
  obtain ⟨left, hwalk⟩ := (System.walkFrom_trail_of_stat hdir).1
  rw [hcstr] at hwalk
  rw [hjoin]
  refine ⟨?_, ?_, ?_, trail path, htrail, left, ?_⟩
  · apply cStr_of_not_mem
    intro hmem'
    cases List.mem_append.mp hmem' with
    | inl h =>
        cases hmem _ h with
        | inl h => exact hnul h
        | inr h => exact absurd h (by decide)
    | inr h => exact name.2.2 h
  · simp [name.2.1.1]
  · rw [endMove_append name.2.1.1, endMove_name]
  · intro sys' hgrows
    rw [System.walkFrom, System.origin, hrooted]
    exact hgrows.walkFrom hwalk

theorem stat_joinOf_of_file (b : Backend) (hnul : '\x00' ∉ path)
    (hdir : sys.stat path = .ok (.dir R)) {sys' : System} (hgrows : sys.Grows sys')
    {name : FileName} {e : Entry FileName} {ino : Nat}
    (hfind : sys'.tree.lookup R name = some e) (hnode : e.node = .file ino) :
    sys'.stat (joinOf b path name.1) = .ok (.file R e.name ino) := by
  obtain ⟨hcstr, hne, hend, front, htrail, left, hwalk⟩ := walkFrom_joinOf b hnul hdir name
  refine System.stat_of_walkFrom left (by rw [hcstr]; exact hne) ?_
  rw [hcstr, hend, List.append_nil, htrail, System.walkFrom,
    Tree.walk_append_of_ok (hwalk sys' hgrows), Tree.walk_down_of_file hfind hnode, Tree.walk_nil]

theorem stat_joinOf_of_none (b : Backend) (hnul : '\x00' ∉ path)
    (hdir : sys.stat path = .ok (.dir R)) {sys' : System} (hgrows : sys.Grows sys')
    {name : FileName} (hfind : sys'.tree.lookup R name = none) :
    sys'.stat (joinOf b path name.1) = .error .noent := by
  obtain ⟨hcstr, hne, hend, front, htrail, left, hwalk⟩ := walkFrom_joinOf b hnul hdir name
  refine System.stat_of_walkFrom_error (.missing R name []) (by rw [hcstr]; exact hne) ?_
  rw [hcstr, hend, List.append_nil, htrail, System.walkFrom,
    Tree.walk_append_of_ok (hwalk sys' hgrows), Tree.walk_down_of_none hfind]

theorem openCreate_joinOf_of_none (b : Backend) (hnul : '\x00' ∉ path)
    (hdir : sys.stat path = .ok (.dir R)) {name : FileName}
    (hfind : sys.tree.lookup R name = none) :
    sys.openCreate (joinOf b path name.1) false = sys.createFile R name := by
  obtain ⟨hcstr, hne, hend, front, htrail, left, hwalk⟩ := walkFrom_joinOf b hnul hdir name
  have hmissing : sys.walkFrom (joinOf b path name.1) (front ++ [.down name]) =
      .error (.missing R name []) := by
    rw [System.walkFrom, Tree.walk_append_of_ok (hwalk sys (.refl sys)),
      Tree.walk_down_of_none hfind]
  simp only [System.openCreate, hcstr, hend, htrail, List.append_nil, hmissing, if_neg hne]
  rfl

theorem locate_joinOf (b : Backend) (hnul : '\x00' ∉ path) (hdir : sys.stat path = .ok (.dir R))
    {sys' : System} (hgrows : sys.Grows sys') (name : FileName) :
    sys'.locate (joinOf b path name.1) = .ok (R, .down name) := by
  obtain ⟨hcstr, hne, -, front, htrail, left, hwalk⟩ := walkFrom_joinOf b hnul hdir name
  simp only [System.locate, hcstr, if_neg hne, htrail, List.dropLast_concat, hwalk sys' hgrows,
    List.getLast?_concat, Option.getD_some]

/-- The settings that the probe is meant for: a writable directory of a file
system with one of the two lookups, without the probe name in any casing, and
sixteen random letters and digits. -/
structure Probing (env : ProbeEnv) (sys : System) (path : Str) (R : List FileName) : Prop where
  nul_not_mem : '\x00' ∉ path
  isDir : sys.stat path = .ok (.dir R)
  creates : env.openDest = none
  removes : env.remove = none
  random_length : env.random.length = 16
  random_alphanum : ∀ c ∈ env.random, c.isAlphanum = true
  fold_eq : sys.tree.fold = id ∨ sys.tree.fold = lowerName
  absent : ∀ e ∈ sys.tree.entries, e.dir = R →
    asciiLower e.name.1 ≠ asciiLower (mixedName env.random)

/-- The name of the probe, as the name of an entry. -/
def probeName {rname : Str} (h : ∀ c ∈ rname, c.isAlphanum = true) : FileName :=
  ⟨mixedName rname, isFileName_mixedName h⟩

variable {env : ProbeEnv}

/-- No lookup finds an entry under a name of the probe beforehand. -/
theorem Probing.lookup_eq_none (h : Probing env sys path R) (name : FileName)
    (hname : asciiLower name.1 = asciiLower (mixedName env.random)) :
    sys.tree.lookup R name = none := by
  cases hfind : sys.tree.lookup R name with
  | none => rfl
  | some e =>
      obtain ⟨hmem, hdir, hfold⟩ := Tree.lookup_eq_some_iff.mp hfind
      refine absurd ?_ (h.absent e hmem hdir)
      cases h.fold_eq with
      | inl hid =>
          rw [hid] at hfold
          rw [← hname, show e.name = name from hfold]
      | inr hlower =>
          rw [hlower] at hfold
          exact (lowerName_eq_iff.mp hfold).trans hname

/-- The entry of the probe file. -/
def probeEntry (sys : System) (R : List FileName) {rname : Str}
    (h : ∀ c ∈ rname, c.isAlphanum = true) : Entry FileName :=
  ⟨R, probeName h, .file sys.freshIno⟩

/-- `touch` puts the probe file into the directory. -/
theorem Probing.touch (b : Backend) (h : Probing env sys path R) :
    ∃ (hdir : sys.tree.IsDir R) (hnew : sys.tree.lookup R (probeName h.random_alphanum) = none)
      (sys' : System),
      touch b env.toTouchEnv sys (.ofStr (joinOf b path (mixedName env.random))) = (true, sys') ∧
        sys.Grows sys' ∧
        sys'.tree = sys.tree.add (probeEntry sys R h.random_alphanum) hdir hnew := by
  have hnew := h.lookup_eq_none (probeName h.random_alphanum) rfl
  have hdir : sys.tree.IsDir R := System.stat_stands h.isDir
  have hmissing := stat_joinOf_of_none b h.nul_not_mem h.isDir (.refl sys) hnew
  have hcreate := openCreate_joinOf_of_none b h.nul_not_mem h.isDir hnew
  rw [System.createFile, dif_pos ⟨hdir, hnew⟩] at hcreate
  generalize hp : joinOf b path (probeName h.random_alphanum).1 = p at hmissing hcreate
  have hset : setModtime b env.toTouchEnv sys p = false := by
    rw [setModtime, hmissing]
  have hopen : (env.openDest.isNone && mayOpen env.toTouchEnv sys p) = true := by
    rw [h.creates, mayOpen, hmissing]
    rfl
  refine ⟨hdir, hnew, ((sys.addEntry (probeEntry sys R h.random_alphanum) hdir hnew).withData
    sys.freshIno []).withData sys.freshIno [], ?_, ?_, rfl⟩
  · rw [show joinOf b path (mixedName env.random) = p from hp, Ffilesystem.touch, View.text_ofStr,
      hset, if_neg (by decide), View.fromData_ofStr, openTruncate, if_pos hopen, hcreate]
    rfl
  · exact ((System.grows_addEntry hdir hnew).trans (System.grows_withData _ _)).trans
      (System.grows_withData _ _)

theorem Probing.lookup_probe (h : Probing env sys path R) {sys' : System}
    {hdir : sys.tree.IsDir R} {hnew : sys.tree.lookup R (probeName h.random_alphanum) = none}
    (htree : sys'.tree = sys.tree.add (probeEntry sys R h.random_alphanum) hdir hnew) :
    sys'.tree.lookup R (probeName h.random_alphanum) =
      some (probeEntry sys R h.random_alphanum) := by
  rw [htree]
  exact Tree.lookup_add_self (e := probeEntry sys R h.random_alphanum) hdir hnew

/-- With the probe file there, its lower-cased name leads to it exactly when
lookup ignores case. -/
theorem Probing.equivalent_iff (b : Backend) (h : Probing env sys path R) {sys' : System}
    {hdir : sys.tree.IsDir R} {hnew : sys.tree.lookup R (probeName h.random_alphanum) = none}
    (hgrows : sys.Grows sys')
    (htree : sys'.tree = sys.tree.add (probeEntry sys R h.random_alphanum) hdir hnew) :
    sys'.equivalent (joinOf b path (mixedName env.random))
        (joinOf b path (asciiLower (mixedName env.random))) = true ↔
      sys.tree.fold = lowerName := by
  have hself := h.lookup_probe htree
  have hmixed := stat_joinOf_of_file b h.nul_not_mem h.isDir hgrows hself rfl
  have hlower := Tree.lookup_add (e := probeEntry sys R h.random_alphanum) hdir hnew R
    (lowerName (probeName h.random_alphanum))
  rw [← htree] at hlower
  have hidem : lowerName (lowerName (probeName h.random_alphanum)) =
      lowerName (probeName h.random_alphanum) := Subtype.ext (asciiLower_idem _)
  have hne : lowerName (probeName h.random_alphanum) ≠ probeName h.random_alphanum :=
    fun heq => asciiLower_mixedName_ne env.random (congrArg Subtype.val heq)
  cases h.fold_eq with
  | inl hid =>
      have hnone := h.lookup_eq_none (lowerName (probeName h.random_alphanum))
        (asciiLower_idem _)
      rw [if_neg (by rw [hid]; exact fun heq => hne heq.2.symm), hnone] at hlower
      have hstat := stat_joinOf_of_none b h.nul_not_mem h.isDir hgrows hlower
      constructor
      · intro hequiv
        rw [System.equivalent, show sys'.stat (joinOf b path (asciiLower (mixedName env.random))) =
          _ from hstat] at hequiv
        split at hequiv
        · rename_i heq
          cases heq
        · cases hequiv
      · intro hlow
        rw [hid] at hlow
        exact absurd (congrFun hlow (probeName h.random_alphanum)).symm hne
  | inr hlow =>
      rw [if_pos ⟨rfl, by rw [hlow]; exact hidem.symm⟩] at hlower
      have hstat := stat_joinOf_of_file b h.nul_not_mem h.isDir hgrows hlower rfl
      refine ⟨fun _ => hlow, fun _ => ?_⟩
      rw [System.equivalent, show sys'.stat (joinOf b path (mixedName env.random)) = _ from hmixed,
        show sys'.stat (joinOf b path (asciiLower (mixedName env.random))) = _ from hstat]
      exact decide_eq_true rfl

/-- The destructor takes the probe file out again. -/
theorem Probing.removeOnExit (b : Backend) (h : Probing env sys path R) {sys' : System}
    {hdir : sys.tree.IsDir R} {hnew : sys.tree.lookup R (probeName h.random_alphanum) = none}
    (hgrows : sys.Grows sys')
    (htree : sys'.tree = sys.tree.add (probeEntry sys R h.random_alphanum) hdir hnew) :
    (removeOnExit env sys' (joinOf b path (mixedName env.random))).tree = sys.tree := by
  have hself := h.lookup_probe htree
  have hlocate := locate_joinOf b h.nul_not_mem h.isDir hgrows (probeName h.random_alphanum)
  obtain ⟨hcstr, hne, hend, -⟩ :=
    walkFrom_joinOf b h.nul_not_mem h.isDir (probeName h.random_alphanum)
  generalize hp : joinOf b path (probeName h.random_alphanum).1 = p at hlocate hcstr hne hend
  have hmem := (Tree.lookup_eq_some_iff.mp hself).1
  have hempty : ∀ e' ∈ sys'.tree.entries, e'.dir ≠ (probeEntry sys R h.random_alphanum).path :=
    fun e' he' => Tree.dir_ne_path hmem (by simp [probeEntry]) he'
  have hback : sys'.tree.remove (probeEntry sys R h.random_alphanum) hempty = sys.tree := by
    obtain ⟨tree, data, specials, cwd, maxLinks, cwd_isDir⟩ := sys'
    obtain rfl : tree = _ := htree
    exact Tree.remove_add hdir hnew hempty
  have hcwd : (sys'.tree.remove (probeEntry sys R h.random_alphanum) hempty).IsDir sys'.cwd := by
    rw [hback, hgrows.cwd_eq]
    exact sys.cwd_isDir
  have hcall : sys'.removeCall p = .ok { sys' with
      tree := sys'.tree.remove (probeEntry sys R h.random_alphanum) hempty
      cwd_isDir := hcwd } := by
    simp only [System.removeCall, hlocate, hself, hcstr, hend]
    rw [if_neg (fun hand => hand.1 rfl), System.removeEntry, dif_pos hempty, dif_pos hcwd]
  have hnonempty : (p.isEmpty || env.remove.isSome) = false := by
    rw [h.removes]
    simp [hne]
  rw [show joinOf b path (mixedName env.random) = p from hp, Ffilesystem.removeOnExit, hnonempty,
    if_neg (by decide), hcall]
  exact hback

/-- What `is_case_sensitive` reports in the setting of a probe: that lookup
ignores case. The directory is left as it was. -/
theorem isCaseSensitive_probing (b : Backend) (h : Probing env sys path R) :
    ((isCaseSensitive b env sys path).1 = true ↔ sys.tree.fold = lowerName) ∧
      (isCaseSensitive b env sys path).2.tree = sys.tree := by
  obtain ⟨hdir, hnew, sys', htouch, hgrows, htree⟩ := h.touch b
  have hpath : (path.isEmpty || !sys.isDirectory path) = false := by
    have hne := (System.stat_eq_ok h.isDir).1
    rw [cStr_of_not_mem h.nul_not_mem] at hne
    rw [System.isDirectory, h.isDir]
    simp [hne, Spot.isDir]
  have hrandom : env.random.isEmpty = false := by
    cases hr : env.random with
    | nil =>
        have hlen := h.random_length
        rw [hr] at hlen
        cases hlen
    | cons c rest => rfl
  have hcall : isCaseSensitive b env sys path =
      (sys'.equivalent (joinOf b path (mixedName env.random))
          (joinOf b path (asciiLower (mixedName env.random))),
        removeOnExit env sys' (joinOf b path (mixedName env.random))) := by
    simp only [isCaseSensitive, hpath, hrandom, htouch]
    rfl
  rw [hcall]
  exact ⟨h.equivalent_iff b hgrows htree, h.removeOnExit b hgrows htree⟩

/-- The report that is asked for: true exactly when lookup is exact, with the
entries of the directory as they were. -/
def ReportsCaseSensitivity (b : Backend) (env : ProbeEnv) (sys : System) (path : Str) : Prop :=
  ((isCaseSensitive b env sys path).1 = true ↔ sys.tree.fold = id) ∧
    (isCaseSensitive b env sys path).2.tree.entries = sys.tree.entries

theorem lowerName_ne_id : lowerName ≠ id := by
  intro heq
  have happ := congrFun heq ⟨['A'], by decide⟩
  exact absurd happ (by decide)

/-- In every setting of a probe the answer is the opposite of the one asked for. -/
theorem isCaseSensitive_not_reports (b : Backend) (h : Probing env sys path R) :
    ¬ ReportsCaseSensitivity b env sys path := by
  intro hreports
  have hanswer := (isCaseSensitive_probing b h).1
  rw [hreports.1] at hanswer
  cases h.fold_eq with
  | inl hid => exact lowerName_ne_id ((hanswer.mp hid).symm.trans hid)
  | inr hlower => exact lowerName_ne_id (hlower.symm.trans (hanswer.mpr hlower))

/-- The caller of the probe may do everything; the random text is fixed. -/
def prober : ProbeEnv where
  owns _ := true
  mayWrite _ := true
  utime := none
  openDest := none
  remove := none
  random := "0a1B2c3D4e5F6g7H".toList

theorem isCaseSensitive_not_reports_at :
    ¬ ReportsCaseSensitivity .c prober twoFiles ['/'] :=
  isCaseSensitive_not_reports .c (R := [])
    { nul_not_mem := by decide
      isDir := by decide +kernel
      creates := rfl
      removes := rfl
      random_length := rfl
      random_alphanum := List.all_eq_true.mp (by decide)
      fold_eq := .inl rfl
      absent := by decide }

/-- In the root directory of a file system with exact lookup the answer is no. -/
theorem isCaseSensitive_exact_lookup :
    ¬ ReportsCaseSensitivity .cxxFilesystem prober twoFiles ['/'] := by
  intro hreports
  have hanswer : (isCaseSensitive .cxxFilesystem prober twoFiles ['/']).1 = false := by
    decide +kernel
  rw [hreports.1.mpr rfl] at hanswer
  cases hanswer

end Probe

end Ffilesystem
