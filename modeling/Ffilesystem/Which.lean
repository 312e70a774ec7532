import Ffilesystem.Parent

/-!
# Searching for an executable on POSIX systems

`fs_which_generic` cuts the search path at its separators with positions of its
own instead of calling `split_pathsep`. The loop returns early or collects every
hit, and skips an empty element only where a separator follows it.

Besides the result, the model returns the names that were tested, in order. The
loop is proved to search a list of directories; what remains is which list that
is. An explicit search path was tested to be one directory, and is cut at its
separators all the same.
-/

namespace Ffilesystem

/-- What the search sees of its surroundings: the tests of the file system and
the value of the environment variable `PATH`. -/
structure WhichEnv where
  isDirectory : Str → Bool
  isFile : Str → Bool
  isExe : Str → Bool
  path : Option Str

namespace WhichEnv

def hits (env : WhichEnv) (r : Str) : Bool := env.isFile r && env.isExe r

end WhichEnv

/-- The body of the loop for one file name: an early return, or the new value
of the collected text `t`. -/
def fsWhichTest (env : WhichEnv) (findAll : Bool) (t r : Str) : Except Str Str :=
  if env.hits r then
    if findAll then .ok (t ++ r ++ [':']) else .error r
  else .ok t

/-- The lines after the loop: the last separator goes. -/
def fsWhichEnd (findAll : Bool) (t : Str) : Str :=
  if findAll && !t.isEmpty then t.dropLast else []

def fsWhichLoop (env : WhichEnv) (name paths : Str) (findAll : Bool) (start : Nat) (t : Str) :
    Str × List Str :=
  match _hfind : Scan.find paths ':' start with
  | some stop =>
      -- an empty element is skipped here, where a separator ends it
      if stop = start then fsWhichLoop env name paths findAll (stop + 1) t
      else
        let r := Scan.substr paths start (stop - start) ++ '/' :: name
        match fsWhichTest env findAll t r with
        | .error r => (r, [r])
        | .ok t =>
            let rest := fsWhichLoop env name paths findAll (stop + 1) t
            (rest.1, r :: rest.2)
  | none =>
      let r := paths.drop start ++ '/' :: name
      match fsWhichTest env findAll t r with
      | .error r => (r, [r])
      | .ok t => (fsWhichEnd findAll t, [r])
termination_by paths.length - start
decreasing_by
  all_goals
    obtain ⟨_, _, _, _⟩ := Scan.find_eq_some _hfind
    omega

/-- The result, and the names of the files that were tested. -/
def fsWhichGeneric (b : Backend) (env : WhichEnv) (name path : Str) (findAll : Bool) :
    Str × List Str :=
  if parent b name ≠ dot ∨ Scan.substr name 0 2 = ['.', '/'] then
    (if env.isExe name then name else [], [name])
  else
    let paths := if path.isEmpty then env.path.getD [] else path
    if paths.isEmpty then ([], [])
    else fsWhichLoop env name paths findAll 0 []

def which (b : Backend) (env : WhichEnv) (name path : Str) (findAll : Bool) : Str × List Str :=
  if !path.isEmpty && !env.isDirectory path then ([], [])
  else fsWhichGeneric b env name path findAll

section Search

variable (env : WhichEnv) (name : Str)

def candidate (dir : Str) : Str := dir ++ '/' :: name

/-- The loop as a search through a list of directories. -/
def search (findAll : Bool) (t : Str) : List Str → Str × List Str
  | [] => (fsWhichEnd findAll t, [])
  | dir :: dirs =>
      match fsWhichTest env findAll t (candidate name dir) with
      | .error r => (r, [r])
      | .ok t =>
          let rest := search findAll t dirs
          (rest.1, candidate name dir :: rest.2)

/-- The directories that the loop searches: it drops the empty elements, but
not the last one. -/
def searched (paths : Str) : List Str :=
  (paths.splitOn ':').dropLast.filter (· ≠ []) ++ (paths.splitOn ':').getLast?.toList

theorem searched_of_find_some {paths : Str} {start stop : Nat}
    (hfind : Scan.find paths ':' start = some stop) :
    searched (paths.drop start) =
      (if stop = start then [] else [Scan.substr paths start (stop - start)]) ++
        searched (paths.drop (stop + 1)) := by
  have hle := Scan.le_of_find hfind
  have hnil : Scan.substr paths start (stop - start) = [] ↔ stop = start := by
    have hlt := (Scan.find_eq_some hfind).2.1
    rw [Scan.substr, List.take_eq_nil_iff, List.drop_eq_nil_iff]
    omega
  obtain ⟨first, rest, hs⟩ :=
    List.exists_cons_of_ne_nil (List.splitOn_ne_nil ':' (paths.drop (stop + 1)))
  rw [searched, searched, Scan.splitOn_drop_of_find_some hfind, hs, List.dropLast_cons_cons,
    List.getLast?_cons_cons, List.filter_cons]
  by_cases h : stop = start
  · simp [h, Scan.substr]
  · simp [h, hnil]

theorem searched_of_find_none {paths : Str} {start : Nat}
    (hfind : Scan.find paths ':' start = none) :
    searched (paths.drop start) = [paths.drop start] := by
  rw [searched, Scan.splitOn_drop_of_find_none hfind]
  rfl

/-- The positions of the loop walk the list of searched directories. -/
theorem fsWhichLoop_eq_search (paths : Str) (findAll : Bool) (start : Nat) (t : Str) :
    fsWhichLoop env name paths findAll start t =
      search env name findAll t (searched (paths.drop start)) := by
  fun_induction fsWhichLoop env name paths findAll start t with
  | case1 t stop hfind ih => rw [ih, searched_of_find_some hfind, if_pos rfl, List.nil_append]
  | case2 start t stop hfind hne r hit htest =>
      rw [searched_of_find_some hfind, if_neg hne]
      simp [search, candidate, r, htest]
  | case3 start t stop hfind hne r t' htest rest ih =>
      rw [searched_of_find_some hfind, if_neg hne]
      simp [search, candidate, r, htest, rest, ih]
  | case4 start t hfind r hit htest =>
      rw [searched_of_find_none hfind]
      simp [search, candidate, r, htest]
  | case5 start t hfind r t' htest =>
      rw [searched_of_find_none hfind]
      simp [search, candidate, r, htest]

theorem fsWhichLoop_start (paths : Str) (findAll : Bool) :
    fsWhichLoop env name paths findAll 0 [] = search env name findAll [] (searched paths) := by
  rw [fsWhichLoop_eq_search, List.drop_zero]

/-- Only an empty last element sets the searched directories apart from the
elements of the split search path. -/
theorem searched_eq (paths : Str) :
    searched paths = splitPathsep .posix paths ++
      if paths = [] ∨ paths.getLast? = some ':' then [[]] else [] := by
  rw [searched, Scan.filter_dropLast_splitOn_concat, splitPathsep_eq]
  simp only [Scan.getLast?_splitOn_eq_nil_iff, Platform.pathSeparator_posix]
  split <;> simp

/-- Without collecting, the search stops at the first hit. -/
theorem search_first (t : Str) (dirs : List Str) :
    (search env name false t dirs).1 = ((dirs.map (candidate name)).filter env.hits).headD [] := by
  induction dirs with
  | nil => rfl
  | cons dir dirs ih =>
      cases hhit : env.hits (candidate name dir) with
      | true => simp [search, fsWhichTest, hhit]
      | false =>
          rw [List.map_cons, List.filter_cons_of_neg (by simp [hhit]), ← ih]
          simp [search, fsWhichTest, hhit]

/-- With collecting, each hit is written with a separator behind it. -/
theorem search_all (t : Str) (dirs : List Str) :
    (search env name true t dirs).1 =
      fsWhichEnd true (((dirs.map (candidate name)).filter env.hits).foldl
        (fun t r => t ++ r ++ [':']) t) := by
  induction dirs generalizing t with
  | nil => rfl
  | cons dir dirs ih =>
      cases hhit : env.hits (candidate name dir) with
      | true =>
          rw [List.map_cons, List.filter_cons_of_pos hhit, List.foldl_cons, ← ih]
          simp [search, fsWhichTest, hhit]
      | false =>
          rw [List.map_cons, List.filter_cons_of_neg (by simp [hhit]), ← ih]
          simp [search, fsWhichTest, hhit]

/-- The last separator that collecting wrote is the one that goes again. -/
theorem fsWhichEnd_foldl (hits : List Str) :
    fsWhichEnd true (hits.foldl (fun t r => t ++ r ++ [':']) []) = [':'].intercalate hits := by
  cases hits with
  | nil => rfl
  | cons r hits =>
      rw [Scan.foldl_append_sep (List.cons_ne_nil _ _)]
      simp [fsWhichEnd]

theorem search_tested_subset (findAll : Bool) (t : Str) (dirs : List Str) :
    ∀ r ∈ (search env name findAll t dirs).2, r ∈ dirs.map (candidate name) := by
  induction dirs generalizing t with
  | nil =>
      intro r hr
      cases hr
  | cons dir dirs ih =>
      intro r hr
      rw [search] at hr
      cases htest : fsWhichTest env findAll t (candidate name dir) with
      | error hit =>
          have hhit : hit = candidate name dir := by
            rw [fsWhichTest] at htest
            grind
          rw [htest] at hr
          rw [List.mem_singleton.mp hr, hhit]
          exact List.mem_cons_self
      | ok t' =>
          rw [htest] at hr
          cases List.mem_cons.mp hr with
          | inl heq => exact heq ▸ List.mem_cons_self
          | inr hmem => exact List.mem_cons_of_mem _ (ih t' r hmem)

/-- Collecting never returns early, so every directory is visited. -/
theorem search_tested_all (t : Str) (dirs : List Str) :
    (search env name true t dirs).2 = dirs.map (candidate name) := by
  induction dirs generalizing t with
  | nil => rfl
  | cons dir dirs ih =>
      obtain ⟨t', htest⟩ : ∃ t', fsWhichTest env true t (candidate name dir) = .ok t' := by
        rw [fsWhichTest]
        split
        · exact ⟨_, rfl⟩
        · exact ⟨_, rfl⟩
      simp [search, htest, ih]

end Search

section Specification

variable (b : Backend) (env : WhichEnv) (name : Str)

/-- The file names that the elements of `PATH` give. -/
def candidates : List Str :=
  (splitPathsep .posix (env.path.getD [])).map (candidate name)

/-- The candidates that are executable files, in order. -/
def found : List Str := (candidates env name).filter env.hits

/-- What a search without an explicit path is for: the first executable of the
candidates, or all of them, and no test of any other file. -/
structure SearchesPath : Prop where
  first : (which b env name [] false).1 = (found env name).headD []
  all : (which b env name [] true).1 = [':'].intercalate (found env name)
  tested : ∀ findAll, ∀ r ∈ (which b env name [] findAll).2, r ∈ candidates env name

variable {b env name}

theorem which_eq_search (hparent : parent b name = dot)
    (hname : Scan.substr name 0 2 ≠ ['.', '/']) (hpath : env.path.getD [] ≠ [])
    (findAll : Bool) :
    which b env name [] findAll =
      search env name findAll [] (searched (env.path.getD [])) := by
  rw [← fsWhichLoop_start]
  simp [which, fsWhichGeneric, hparent, hname, hpath]

theorem which_of_path_nil (hparent : parent b name = dot)
    (hname : Scan.substr name 0 2 ≠ ['.', '/']) (hpath : env.path.getD [] = [])
    (findAll : Bool) : which b env name [] findAll = ([], []) := by
  simp [which, fsWhichGeneric, hparent, hname, hpath]

/-- A name in the root directory comes from no element of `PATH`. -/
theorem candidate_nil_not_mem : candidate name [] ∉ candidates env name := by
  intro hmem
  obtain ⟨dir, hdir, heq⟩ := List.mem_map.mp hmem
  rw [splitPathsep_eq] at hdir
  refine (Scan.of_mem_components hdir).1 ?_
  have hlen := congrArg List.length heq
  simp only [candidate, List.length_append, List.length_nil] at hlen
  exact List.length_eq_zero_iff.mp (by omega)

/-- A search through the elements of `PATH` does what it is for. -/
theorem searchesPath_of_search
    (h : ∀ findAll, which b env name [] findAll =
      search env name findAll [] (splitPathsep .posix (env.path.getD []))) :
    SearchesPath b env name where
  first := by
    rw [h, search_first]
    rfl
  all := by
    rw [h, search_all, fsWhichEnd_foldl]
    rfl
  tested := by
    intro findAll r hr
    rw [h] at hr
    exact search_tested_subset env name findAll [] _ r hr

/-- The search does what it is for if and only if `PATH` has no separator at
its end: there the empty last element is searched as the root directory. -/
theorem which_searchesPath_iff (hparent : parent b name = dot)
    (hname : Scan.substr name 0 2 ≠ ['.', '/']) :
    SearchesPath b env name ↔ (env.path.getD []).getLast? ≠ some ':' := by
  constructor
  · intro h hlast
    have hpath : env.path.getD [] ≠ [] := by
      intro hnil
      rw [hnil] at hlast
      cases hlast
    have hroot := h.tested true (candidate name [])
    rw [which_eq_search hparent hname hpath, search_tested_all, searched_eq,
      if_pos (.inr hlast)] at hroot
    exact candidate_nil_not_mem (hroot (by simp))
  · intro hlast
    apply searchesPath_of_search
    intro findAll
    by_cases hpath : env.path.getD [] = []
    · rw [which_of_path_nil hparent hname hpath, hpath, splitPathsep_eq, Scan.components_nil]
      cases findAll <;> rfl
    · rw [which_eq_search hparent hname hpath, searched_eq, if_neg (by simp [hpath, hlast]),
        List.append_nil]

/-- An environment with one executable file, `/ls`, and a given `PATH`. -/
def rootLsEnv (path : Str) : WhichEnv where
  isDirectory _ := false
  isFile r := r == ['/', 'l', 's']
  isExe r := r == ['/', 'l', 's']
  path := some path

theorem which_searchesPath_at :
    SearchesPath .c (rootLsEnv ['a', ':', 'b']) ['l', 's'] :=
  (which_searchesPath_iff (parent_of_not_mem_slash .c (by decide)) (by decide)).mpr (by decide)

/-- With `PATH` set to `"a:"` the search finds `/ls`. -/
theorem which_searches_root :
    ¬ SearchesPath .c (rootLsEnv ['a', ':']) ['l', 's'] := by
  intro h
  have hfirst := h.first
  have hroot : (which .c (rootLsEnv ['a', ':']) ['l', 's'] [] false).1 = ['/', 'l', 's'] := by
    decide +kernel
  rw [hroot] at hfirst
  exact absurd hfirst (by decide +kernel)

end Specification

section Directory

variable {b : Backend} {env : WhichEnv} {name path : Str}

theorem which_eq_search_path (hne : path ≠ []) (hdir : env.isDirectory path = true)
    (hparent : parent b name = dot) (hname : Scan.substr name 0 2 ≠ ['.', '/']) (findAll : Bool) :
    which b env name path findAll = search env name findAll [] (searched path) := by
  rw [← fsWhichLoop_start]
  simp [which, fsWhichGeneric, hparent, hname, hne, hdir]

theorem sep_not_mem_of_mem_searched {dir : Str} (h : dir ∈ searched path) : ':' ∉ dir := by
  rw [searched_eq, List.mem_append, splitPathsep_eq] at h
  cases h with
  | inl hmem => exact (Scan.of_mem_components hmem).2
  | inr hend =>
      split at hend
      · rw [List.mem_singleton.mp hend]
        exact List.not_mem_nil
      · cases hend

/-- A directory name without a separator is searched as it is. -/
theorem searched_of_not_mem (hsep : ':' ∉ path) : searched path = [path] := by
  rw [searched, List.splitOn_eq_singleton hsep]
  rfl

theorem candidate_ne_nil (name dir : Str) : candidate name dir ≠ [] :=
  List.append_ne_nil_of_right_ne_nil dir (List.cons_ne_nil _ _)

theorem candidate_inj {dir dir' : Str} (h : candidate name dir = candidate name dir') :
    dir = dir' :=
  List.append_cancel_right h

/-- What a search in one directory is for. -/
def SearchesDirectory (b : Backend) (env : WhichEnv) (name path : Str) : Prop :=
  ∀ findAll, (which b env name path findAll).1 =
    if env.hits (candidate name path) then candidate name path else []

/-- Where no searched directory has the file, nothing is found. -/
theorem search_eq_nil {dirs : List Str}
    (h : ∀ dir ∈ dirs, env.hits (candidate name dir) = false) (findAll : Bool) :
    (search env name findAll [] dirs).1 = [] := by
  have hnone : (dirs.map (candidate name)).filter env.hits = [] := by
    rw [List.filter_eq_nil_iff]
    intro r hr
    obtain ⟨dir, hdir, rfl⟩ := List.mem_map.mp hr
    rw [h dir hdir]
    exact Bool.false_ne_true
  cases findAll with
  | false => rw [search_first, hnone, List.headD_nil]
  | true => rw [search_all, hnone, fsWhichEnd_foldl, List.intercalate_nil]

theorem search_singleton (env : WhichEnv) (name dir : Str) (findAll : Bool) :
    (search env name findAll [] [dir]).1 =
      if env.hits (candidate name dir) then candidate name dir else [] := by
  cases hhit : env.hits (candidate name dir) with
  | false =>
      apply search_eq_nil
      intro dir' hmem
      rw [List.mem_singleton.mp hmem, hhit]
  | true =>
      have hone : ([dir].map (candidate name)).filter env.hits = [candidate name dir] := by
        rw [List.map_singleton, List.filter_cons_of_pos hhit, List.filter_nil]
      rw [if_pos rfl]
      cases findAll with
      | false => rw [search_first, hone, List.headD_cons]
      | true => rw [search_all, hone, fsWhichEnd_foldl, List.intercalate_singleton]

/-- The first hit is in a searched directory, none of which has a separator. -/
theorem hits_eq_false_of_searchesDirectory (hsep : ':' ∈ path)
    (h : (search env name false [] (searched path)).1 =
      if env.hits (candidate name path) then candidate name path else []) :
    env.hits (candidate name path) = false ∧
      ∀ dir ∈ searched path, env.hits (candidate name dir) = false := by
  rw [search_first] at h
  cases hfound : ((searched path).map (candidate name)).filter env.hits with
  | nil =>
      rw [hfound, List.headD_nil] at h
      refine ⟨?_, fun dir hdir => ?_⟩
      · by_contra hhit
        rw [Bool.not_eq_false] at hhit
        rw [if_pos hhit] at h
        exact candidate_ne_nil name path h.symm
      · have hnot := List.filter_eq_nil_iff.mp hfound _ (List.mem_map_of_mem hdir)
        exact Bool.not_eq_true _ ▸ hnot
  | cons r rest =>
      exfalso
      have hr : r ∈ ((searched path).map (candidate name)).filter env.hits :=
        hfound ▸ List.mem_cons_self
      obtain ⟨dir, hdir, rfl⟩ := List.mem_map.mp (List.mem_filter.mp hr).1
      rw [hfound, List.headD_cons] at h
      split at h
      · exact sep_not_mem_of_mem_searched hdir (candidate_inj h ▸ hsep)
      · exact candidate_ne_nil name dir h

/-- One directory is searched if its name has no separator, or if there is nothing
to find, in the directory and in those that its name is cut into. -/
theorem which_searchesDirectory_iff (hne : path ≠ []) (hdir : env.isDirectory path = true)
    (hparent : parent b name = dot) (hname : Scan.substr name 0 2 ≠ ['.', '/']) :
    SearchesDirectory b env name path ↔
      ':' ∉ path ∨ (env.hits (candidate name path) = false ∧
        ∀ dir ∈ searched path, env.hits (candidate name dir) = false) := by
  have hsearch := which_eq_search_path hne hdir hparent hname
  constructor
  · intro h
    by_cases hsep : ':' ∈ path
    · have hfirst := h false
      rw [hsearch] at hfirst
      exact .inr (hits_eq_false_of_searchesDirectory hsep hfirst)
    · exact .inl hsep
  · rintro (hsep | ⟨hnot, hnone⟩) findAll
    · rw [hsearch, searched_of_not_mem hsep, search_singleton]
    · rw [hsearch, search_eq_nil hnone, hnot, if_neg Bool.false_ne_true]

/-- An environment with one executable file, `ls`, in one directory. -/
def dirLsEnv (dir : Str) : WhichEnv where
  isDirectory path := path == dir
  isFile r := r == dir ++ "/ls".toList
  isExe r := r == dir ++ "/ls".toList
  path := none

theorem which_searchesDirectory_at :
    SearchesDirectory .c (dirLsEnv "a b".toList) "ls".toList "a b".toList :=
  (which_searchesDirectory_iff (by decide) (by decide)
    (parent_of_not_mem_slash .c (by decide)) (by decide)).mpr (.inl (by decide))

/-- The directory `"a:b"` is not searched. -/
theorem not_searchesDirectory_of_sep :
    ¬ ∀ (b : Backend) (env : WhichEnv) (name path : Str), path ≠ [] →
      env.isDirectory path = true → parent b name = dot →
      Scan.substr name 0 2 ≠ ['.', '/'] → SearchesDirectory b env name path := by
  intro h
  have hfirst := h .c (dirLsEnv "a:b".toList) "ls".toList "a:b".toList (by decide) (by decide)
    (parent_of_not_mem_slash .c (by decide)) (by decide) false
  exact absurd hfirst (by decide +kernel)

end Directory

end Ffilesystem
