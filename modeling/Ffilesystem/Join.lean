import Mathlib.Data.List.DropRight
import Ffilesystem.Normalize
import Ffilesystem.Pure

/-!
# What a join means

A join is read through the places its arguments walk to: a rooted second path
starts over, any other is walked from where the first path ends. A second path
that is not rooted can be put in normal form first, since its canonical walk ends
where its own walk does from every start (`Lexical.Place.walk_moves_walk`). That
is all that the congruence of `normal` for `join` needs. Joins themselves can be
regrouped, as strings.

The second half compares the join of the C backend with `operator/` of
`std::filesystem::path` on paths with an optional drive.
-/

namespace Ffilesystem

open Lexical

section Meaning

/-- The moves that the components of a path stand for. -/
def movesOf (path : Str) : List (Move Name) := (Scan.components '/' path).map moveOf

theorem place_eq_walk (path : Str) :
    place path = (Place.start (isRooted path)).walk (movesOf path) := rfl

@[simp] theorem movesOf_nil : movesOf [] = [] := by
  simp [movesOf]

theorem movesOf_append_slash (a b : Str) : movesOf (a ++ '/' :: b) = movesOf a ++ movesOf b := by
  rw [movesOf, Scan.components_append_cons, List.map_append]
  rfl

theorem isRooted_append {a : Str} (h : a ≠ []) (b : Str) : isRooted (a ++ b) = isRooted a := by
  obtain ⟨c, a, rfl⟩ := List.exists_cons_of_ne_nil h
  rfl

theorem place_append_slash {a : Str} (h : a ≠ []) (b : Str) :
    place (a ++ '/' :: b) = (place a).walk (movesOf b) := by
  rw [place_eq_walk, isRooted_append h, movesOf_append_slash, Place.walk_append]
  rfl

/-- A join starts over at a rooted path and walks on along any other. -/
theorem place_stdJoin (a b : Str) :
    place (stdJoin a b) = if isRooted b then place b else (place a).walk (movesOf b) := by
  cases hb : isRooted b with
  | true =>
      have hhead : b.head? = some '/' := by simpa [isRooted] using hb
      rw [stdJoin, if_pos hhead, if_pos rfl]
  | false =>
      have hhead : b.head? ≠ some '/' := by simpa [isRooted] using hb
      rw [stdJoin, if_neg hhead, if_neg Bool.false_ne_true]
      cases a using List.reverseRecOn with
      | nil => exact (place_eq_walk b).trans (by rw [hb]; rfl)
      | append_singleton a c =>
          have hne : a ++ [c] ≠ [] := List.concat_ne_nil c a
          by_cases hc : c = '/'
          · -- the separator is there already
            subst c
            have hcut : (a ++ ['/']) ++ b = a ++ '/' :: b := by simp
            have hmoves : movesOf (a ++ ['/']) = movesOf a := by
              rw [movesOf_append_slash, movesOf_nil, List.append_nil]
            rw [if_neg (by simp), place_eq_walk, isRooted_append hne, hcut, movesOf_append_slash,
              place_eq_walk (a ++ ['/']), hmoves, Place.walk_append]
          · rw [if_pos (by simp [hc]), place_append_slash hne]

@[simp] theorem isRooted_genericString (path : Str) :
    isRooted (genericString path) = isRooted path := by
  rw [isRooted, genericString, Scan.head?_squeeze, isRooted]

@[simp] theorem place_genericString (path : Str) : place (genericString path) = place path := by
  rw [place, isRooted_genericString, genericString, Scan.components_squeeze, place]

theorem place_joinOf (b : Backend) (p q : Str) :
    place (joinOf b p q) = if isRooted q then place q else (place p).walk (movesOf q) := by
  rw [apply_joinOf place_genericString, place_stdJoin]

theorem place_join (a b : Str) :
    place (join .posix a b) = if isRooted b then place b else (place a).walk (movesOf b) := by
  rw [join_posix, place_stdJoin]

@[simp] theorem isRooted_normal (path : Str) : isRooted (normal .posix path) = isRooted path := by
  rw [← place_rooted, place_normal, place_rooted]

/-- Only the place of a relative path matters to a walk along it. -/
theorem walk_movesOf {path : Str} (h : isRooted path = false) (m : Place Name) :
    m.walk (movesOf path) = m.walk (place path).moves := by
  rw [place_eq_walk, h, Place.walk_moves_walk]

theorem walk_movesOf_normal {path : Str} (h : isRooted path = false) (m : Place Name) :
    m.walk (movesOf (normal .posix path)) = m.walk (movesOf path) := by
  rw [walk_movesOf h, walk_movesOf (by rw [isRooted_normal, h]), place_normal]

/-- Both arguments of a join may be put in normal form first. -/
theorem normal_join_normal (a b : Str) :
    normal .posix (join .posix a b) =
      normal .posix (join .posix (normal .posix a) (normal .posix b)) := by
  rw [normal_eq_normal_iff, place_join, place_join, isRooted_normal]
  cases hb : isRooted b with
  | true => rw [if_pos rfl, if_pos rfl, place_normal]
  | false =>
      rw [if_neg (by simp), if_neg (by simp), place_normal]
      exact (walk_movesOf_normal hb (place a)).symm

example : normal .posix (join .posix "a/b/..".toList "../../c".toList) = "../c".toList := by
  rw [normal_eq_render]
  decide

/-- The separator that a join puts behind its first path. -/
def joinSep (path : Str) : Str :=
  if !path.isEmpty && path.getLast? ≠ some '/' then ['/'] else []

theorem stdJoin_of_rooted {b : Str} (h : isRooted b = true) (a : Str) : stdJoin a b = b := by
  have hhead : b.head? = some '/' := by simpa [isRooted] using h
  exact if_pos hhead

theorem stdJoin_of_not_rooted {b : Str} (h : isRooted b = false) (a : Str) :
    stdJoin a b = a ++ joinSep a ++ b := by
  have hhead : b.head? ≠ some '/' := by simpa [isRooted] using h
  rw [stdJoin, if_neg hhead, joinSep]
  split
  · rw [List.append_assoc, List.singleton_append]
  · rw [List.append_nil]

/-- The last path decides what follows. An empty one leaves a separator, or
nothing at all, behind. -/
theorem joinSep_append (a b : Str) : joinSep (a ++ joinSep a ++ b) = joinSep b := by
  by_cases hb : b = []
  · subst b
    by_cases ha : a = []
    · rw [ha]
      rfl
    by_cases hlast : a.getLast? = some '/'
    · simp [joinSep, hlast]
    · simp [joinSep, ha, hlast]
  · have hlast := List.getLast?_append_of_ne_nil (a ++ joinSep a) hb
    rw [joinSep.eq_def (_ ++ b), joinSep.eq_def b, hlast]
    simp [hb]

theorem isRooted_stdJoin (a b : Str) : isRooted (stdJoin a b) = (isRooted a || isRooted b) := by
  rw [← place_rooted, place_stdJoin]
  cases hb : isRooted b with
  | true => rw [if_pos rfl, place_rooted, hb, Bool.or_true]
  | false => rw [if_neg Bool.false_ne_true, Place.walk_rooted, place_rooted, Bool.or_false]

theorem stdJoin_assoc (a b c : Str) : stdJoin (stdJoin a b) c = stdJoin a (stdJoin b c) := by
  cases hc : isRooted c with
  | true =>
      rw [stdJoin_of_rooted hc, stdJoin_of_rooted hc, stdJoin_of_rooted hc]
  | false =>
      cases hb : isRooted b with
      | true =>
          have hbc : isRooted (stdJoin b c) = true := by rw [isRooted_stdJoin, hb, Bool.true_or]
          rw [stdJoin_of_rooted hb, stdJoin_of_rooted hbc]
      | false =>
          have hbc : isRooted (stdJoin b c) = false := by rw [isRooted_stdJoin, hb, hc]; rfl
          rw [stdJoin_of_not_rooted hbc, stdJoin_of_not_rooted hc, stdJoin_of_not_rooted hc,
            stdJoin_of_not_rooted hb, joinSep_append]
          simp only [List.append_assoc]

/-- Joins can be regrouped, and the empty path in front adds nothing. -/
theorem join_assoc_and_nil_join :
    (∀ a b c : Str, join .posix (join .posix a b) c = join .posix a (join .posix b c)) ∧
      ∀ a : Str, join .posix [] a = a := by
  refine ⟨fun a b c => ?_, fun a => ?_⟩
  · simp only [join_posix, stdJoin_assoc]
  · rw [join_posix]
    cases ha : isRooted a with
    | true => exact stdJoin_of_rooted ha []
    | false => exact stdJoin_of_not_rooted ha []

end Meaning

section Operator

variable (pl : Platform)

@[simp] theorem asPosix_append (a b : Str) :
    asPosix pl (a ++ b) = asPosix pl a ++ asPosix pl b := by
  cases pl <;> simp [asPosix, Platform.isWindows]

@[simp] theorem length_asPosix (path : Str) : (asPosix pl path).length = path.length := by
  cases pl <;> simp [asPosix, Platform.isWindows]

/-- Either separator becomes a slash. -/
theorem asPosix_cons_of_isFileSeparator {c : Char} (h : pl.isFileSeparator c) (path : Str) :
    asPosix pl (c :: path) = '/' :: asPosix pl path := by
  cases pl with
  | posix =>
      have hc : c = '/' := by simpa using h
      rw [hc]
      rfl
  | windows =>
      rcases (by simpa [Platform.isFileSeparator] using h :
        c = '/' ∨ c = Platform.windows.fileSeparator) with rfl | rfl
      · rfl
      · rfl

namespace StdPath

def rootName (path : Str) : Str :=
  if pl.isWindows ∧ path[1]? = some ':' ∧ path.head?.any Char.isAlpha then path.take 2 else []

def withoutRootName (path : Str) : Str := path.drop (rootName pl path).length

def hasRootDirectory (path : Str) : Bool :=
  (withoutRootName pl path).head?.any pl.isFileSeparator

def isAbsolute (path : Str) : Bool :=
  if pl.isWindows then !(rootName pl path).isEmpty && hasRootDirectory pl path
  else hasRootDirectory pl path

def filename (path : Str) : Str :=
  (withoutRootName pl path).rtakeWhile (fun c => !pl.isFileSeparator c)

/-- `operator/`. The second argument loses its root name when it is appended. -/
def append (path other : Str) : Str :=
  if isAbsolute pl other ||
      (!(rootName pl other).isEmpty && rootName pl other ≠ rootName pl path) then
    other
  else if hasRootDirectory pl other then rootName pl path ++ withoutRootName pl other
  else if !(filename pl path).isEmpty || (!hasRootDirectory pl path && isAbsolute pl path) then
    path ++ pl.fileSeparator :: withoutRootName pl other
  else path ++ withoutRootName pl other

theorem rootName_eq {path : Str} (h : DrivePath pl path) :
    rootName pl path = Ffilesystem.rootName pl path := by
  obtain ⟨hwin, hcolon, hname, _⟩ | ⟨hnot, hname⟩ := rootName_cases pl path
  · rw [hname, rootName, if_pos ⟨hwin, hcolon, (h hwin).1 hcolon⟩]
  · rw [hname, rootName, if_neg (fun hdrive => hnot ⟨hdrive.1, hdrive.2.1⟩)]

theorem hasRootDirectory_eq {path : Str} (h : DrivePath pl path) :
    hasRootDirectory pl path = Ffilesystem.hasRootDirectory pl path := by
  rw [hasRootDirectory, withoutRootName, rootName_eq pl h, Ffilesystem.hasRootDirectory_eq]

theorem isAbsolute_eq {path : Str} (h : DrivePath pl path) :
    isAbsolute pl path = Ffilesystem.isAbsolute pl path := by
  rw [isAbsolute, rootName_eq pl h, hasRootDirectory_eq pl h]
  rfl

/-- A path has a filename when something follows its root name and the last
character is no separator. -/
theorem filename_eq_nil_iff {path : Str} (h : DrivePath pl path) :
    filename pl path = [] ↔
      path = Ffilesystem.rootName pl path ∨ path.getLast?.any pl.isFileSeparator := by
  have hcut := rootName_append_drop pl path
  rw [filename, withoutRootName, rootName_eq pl h, List.rtakeWhile_eq_nil_iff]
  by_cases hrest : path.drop (Ffilesystem.rootName pl path).length = []
  · rw [hrest, List.append_nil] at hcut
    exact ⟨fun _ => .inl hcut.symm, fun _ hne => absurd hrest hne⟩
  · have hne : path ≠ Ffilesystem.rootName pl path := by
      intro heq
      rw [← heq, List.drop_length] at hrest
      exact hrest rfl
    have hlast : path.getLast? = (path.drop (Ffilesystem.rootName pl path).length).getLast? := by
      conv_lhs => rw [← hcut]
      exact List.getLast?_append_of_ne_nil _ hrest
    rw [hlast, List.getLast?_eq_getLast_of_ne_nil hrest]
    simp [hne, hrest]

end StdPath

/-- The second path replaces the first. -/
def Replaces (path other : Str) : Prop :=
  isAbsolute pl other || (hasRootName pl other && rootName pl other ≠ rootName pl path)

theorem join_of_replaces {a b : Str} (h : Replaces pl a b) : join pl a b = b := if_pos h

theorem join_of_hasRootDirectory {a b : Str} (h : ¬ Replaces pl a b)
    (hdir : hasRootDirectory pl b) : join pl a b = rootName pl a ++ b := by
  exact (if_neg h).trans (if_pos hdir)

theorem join_of_not_hasRootDirectory {a b : Str} (h : ¬ Replaces pl a b)
    (hdir : ¬ hasRootDirectory pl b) :
    join pl a b =
      if a ≠ [] ∧ ¬ a.getLast?.any pl.isFileSeparator then a ++ '/' :: b else a ++ b := by
  refine (if_neg h).trans ((if_neg hdir).trans ?_)
  simp

namespace StdPath

variable {pl}

theorem replaces_iff {a b : Str} (ha : DrivePath pl a) (hb : DrivePath pl b) :
    (isAbsolute pl b || (!(rootName pl b).isEmpty && rootName pl b ≠ rootName pl a)) ↔
      Replaces pl a b := by
  rw [isAbsolute_eq pl hb, rootName_eq pl hb, rootName_eq pl ha]
  rfl

theorem append_of_replaces {a b : Str} (ha : DrivePath pl a) (hb : DrivePath pl b)
    (h : Replaces pl a b) : append pl a b = b := if_pos ((replaces_iff ha hb).mpr h)

theorem append_of_hasRootDirectory {a b : Str} (ha : DrivePath pl a) (hb : DrivePath pl b)
    (h : ¬ Replaces pl a b) (hdir : Ffilesystem.hasRootDirectory pl b) :
    append pl a b = Ffilesystem.rootName pl a ++ b := by
  have habs : Ffilesystem.isAbsolute pl b = false :=
    Bool.eq_false_iff.mpr (fun habs => h (Bool.or_eq_true_iff.mpr (.inl habs)))
  have hname := rootName_eq_nil_of_not_isAbsolute pl hdir habs
  rw [append, if_neg ((replaces_iff ha hb).not.mpr h), hasRootDirectory_eq pl hb, if_pos hdir,
    withoutRootName, rootName_eq pl ha, rootName_eq pl hb, hname]
  rfl

theorem append_of_not_hasRootDirectory {a b : Str} (ha : DrivePath pl a) (hb : DrivePath pl b)
    (h : ¬ Replaces pl a b) (hdir : ¬ Ffilesystem.hasRootDirectory pl b) :
    append pl a b =
      if filename pl a ≠ [] then
        a ++ pl.fileSeparator :: b.drop (Ffilesystem.rootName pl b).length
      else a ++ b.drop (Ffilesystem.rootName pl b).length := by
  have hroot : (!hasRootDirectory pl a && isAbsolute pl a) = false := by
    rw [hasRootDirectory_eq pl ha, isAbsolute_eq pl ha]
    cases habs : Ffilesystem.isAbsolute pl a with
    | true => rw [hasRootDirectory_of_isAbsolute pl habs, Bool.not_true, Bool.false_and]
    | false => rw [Bool.and_false]
  rw [append, if_neg ((replaces_iff ha hb).not.mpr h), hasRootDirectory_eq pl hb, if_neg hdir,
    hroot, Bool.or_false, withoutRootName, rootName_eq pl hb]
  simp

end StdPath

/-- The drive of the second path stays in the middle of the result, where
`operator/` drops it. -/
theorem asPosix_join_ne_of_hasRootName {a b : Str} (ha : DrivePath pl a) (hb : DrivePath pl b)
    (h : ¬ Replaces pl a b) (hdir : ¬ hasRootDirectory pl b) (hname : hasRootName pl b) :
    asPosix pl (join pl a b) ≠ asPosix pl (StdPath.append pl a b) := by
  have hlen : (rootName pl b).length = 2 := by
    obtain ⟨_, _, _, hlen⟩ | ⟨_, hnil⟩ := rootName_cases pl b
    · exact hlen
    · simp [hasRootName, hnil] at hname
  rw [join_of_not_hasRootDirectory pl h hdir, StdPath.append_of_not_hasRootDirectory ha hb h hdir]
  intro heq
  have hcut := congrArg List.length (rootName_append_drop pl b)
  have hlens := congrArg List.length heq
  simp only [length_asPosix, apply_ite List.length, List.length_append, List.length_cons]
    at hcut hlens
  split at hlens <;> split at hlens <;> omega

/-- Without a drive in the second path only a bare drive as first path tells the
joins apart: it has no filename, and does not end in a separator. -/
theorem asPosix_join_eq_iff_of_not_hasRootName {a b : Str} (ha : DrivePath pl a)
    (hb : DrivePath pl b) (h : ¬ Replaces pl a b) (hdir : ¬ hasRootDirectory pl b)
    (hname : ¬ hasRootName pl b) :
    asPosix pl (join pl a b) = asPosix pl (StdPath.append pl a b) ↔
      a = [] ∨ a ≠ rootName pl a := by
  have hnil : rootName pl b = [] := by simpa [hasRootName] using hname
  have hfile := StdPath.filename_eq_nil_iff pl ha
  rw [join_of_not_hasRootDirectory pl h hdir,
    StdPath.append_of_not_hasRootDirectory ha hb h hdir, hnil, List.length_nil, List.drop_zero]
  by_cases hempty : a = []
  · have hnone : StdPath.filename pl a = [] := by
      apply hfile.mpr
      rw [hempty]
      exact .inl (List.eq_nil_of_length_eq_zero (by simp [rootName])).symm
    rw [if_neg (fun hsep => hsep.1 hempty), if_neg (not_not.mpr hnone)]
    exact iff_of_true rfl (.inl hempty)
  by_cases hlast : a.getLast?.any pl.isFileSeparator
  · -- a path that ends in a separator is no bare drive
    have hdrive : a ≠ rootName pl a := by
      intro heq
      rw [heq, getLast?_rootName] at hlast
      cases hlast
    rw [if_neg (fun hsep => hsep.2 hlast), if_neg (not_not.mpr (hfile.mpr (.inr hlast)))]
    exact iff_of_true rfl (.inr hdrive)
  · rw [if_pos ⟨hempty, hlast⟩, or_iff_right hempty]
    by_cases hdrive : a = rootName pl a
    · rw [if_neg (not_not.mpr (hfile.mpr (.inl hdrive)))]
      refine iff_of_false (fun heq => ?_) (fun hne => hne hdrive)
      have hlens := congrArg List.length heq
      simp only [length_asPosix, List.length_append, List.length_cons] at hlens
      omega
    · rw [if_pos (fun hnone => (hfile.mp hnone).elim hdrive hlast)]
      refine iff_of_true ?_ hdrive
      have hslash : pl.isFileSeparator '/' := by simp [Platform.isFileSeparator]
      have hown : pl.isFileSeparator pl.fileSeparator := by simp [Platform.isFileSeparator]
      rw [asPosix_append, asPosix_append, asPosix_cons_of_isFileSeparator pl hslash,
        asPosix_cons_of_isFileSeparator pl hown]

/-- The two joins agree, up to the kind of separator, where the second path has a
root directory or another drive, or has no drive and the first is more than one. -/
theorem asPosix_join_eq_iff {a b : Str} (ha : DrivePath pl a) (hb : DrivePath pl b) :
    asPosix pl (join pl a b) = asPosix pl (StdPath.append pl a b) ↔
      hasRootDirectory pl b ∨
        if hasRootName pl b then rootName pl b ≠ rootName pl a
        else a = [] ∨ a ≠ rootName pl a := by
  by_cases h : Replaces pl a b
  · rw [join_of_replaces pl h, StdPath.append_of_replaces ha hb h]
    apply iff_of_true rfl
    rcases Bool.or_eq_true_iff.mp h with habs | hname
    · exact .inl (hasRootDirectory_of_isAbsolute pl habs)
    · rw [Bool.and_eq_true_iff, decide_eq_true_iff] at hname
      exact .inr (by rw [if_pos hname.1]; exact hname.2)
  by_cases hdir : hasRootDirectory pl b
  · rw [join_of_hasRootDirectory pl h hdir, StdPath.append_of_hasRootDirectory ha hb h hdir]
    exact iff_of_true rfl (.inl hdir)
  rw [or_iff_right hdir]
  by_cases hname : hasRootName pl b
  · have hsame : rootName pl b = rootName pl a := by
      by_contra hne
      exact h (Bool.or_eq_true_iff.mpr (.inr (by simpa [hname] using hne)))
    rw [if_pos hname]
    exact iff_of_false (asPosix_join_ne_of_hasRootName pl ha hb h hdir hname)
      (fun hne => hne hsame)
  · rw [if_neg hname]
    exact asPosix_join_eq_iff_of_not_hasRootName pl ha hb h hdir hname

theorem asPosix_join_eq_of_drive :
    DrivePath .windows "c:/a".toList ∧ DrivePath .windows "b".toList ∧
      asPosix .windows (join .windows "c:/a".toList "b".toList) =
        asPosix .windows (StdPath.append .windows "c:/a".toList "b".toList) :=
  ⟨by decide, by decide,
    (asPosix_join_eq_iff .windows (by decide) (by decide)).mpr (by decide)⟩

/-- A bare drive gets a separator, which makes the result absolute. -/
theorem asPosix_join_ne_of_bare_drive :
    ¬ ∀ (pl : Platform) (a b : Str), DrivePath pl a → DrivePath pl b →
      asPosix pl (join pl a b) = asPosix pl (StdPath.append pl a b) := by
  intro h
  exact absurd (h .windows "c:".toList "x".toList (by decide) (by decide)) (by decide)

end Operator

end Ffilesystem
