import Mathlib.Data.List.TakeWhile
import Ffilesystem.Library.Scan
import Ffilesystem.Platform

/-!
# The home directory in front of a path

`expanduser` replaces a tilde in front by the home directory. It looks at the
first two characters, and for the rest of the path only behind them, so that a
path of two characters returns early.
-/

namespace Ffilesystem

/-- Where the home directory comes from: the environment variables, and the
profile of the user. -/
structure HomeEnv where
  getenv : Str → Option Str
  profileDir : Str

variable (pl : Platform) (env : HomeEnv)

def getHomedir : Str :=
  match env.getenv (if pl.isWindows then "USERPROFILE".toList else "HOME".toList) with
  | some h => if h.isEmpty then env.profileDir else h
  | none => env.profileDir

/-- A directory that names can be appended to. -/
def pushSeparator (e : Str) : Str :=
  if e.getLast?.any pl.isFileSeparator then e else e ++ ['/']

def expanduser (path : Str) : Str :=
  if path.isEmpty then []
  else if path.head? ≠ some '~' then path
  else if 1 < path.length ∧ ¬ path[1]?.any pl.isFileSeparator then path
  else
    let e := getHomedir pl env
    if e.isEmpty ∨ path.length < 3 then e
    else
      -- "handle initial duplicated file separators"
      match Scan.findFirstNot pl.isFileSeparator path 2 with
      | some i => pushSeparator pl e ++ path.drop i
      | none => pushSeparator pl e

/-- The rule for the result `r` of expanding `path` with the home directory `h`. -/
structure ExpandsUser (h path r : Str) : Prop where
  kept : path.head? ≠ some '~' ∨ (∃ c, path[1]? = some c ∧ pl.isFileSeparator c = false) → r = path
  home : ∀ run, path = '~' :: run → (∀ c ∈ run, pl.isFileSeparator c) → r = h
  below : ∀ run c rest, path = '~' :: (run ++ c :: rest) → run ≠ [] →
    (∀ c ∈ run, pl.isFileSeparator c) → pl.isFileSeparator c = false →
    r = pushSeparator pl h ++ c :: rest

section Rule

variable {pl env} {path : Str}

/-- A path is kept, or it is a tilde, a run of separators, and what follows them. -/
theorem expanduser_forms (pl : Platform) (path : Str) :
    (path.head? ≠ some '~' ∨ ∃ c, path[1]? = some c ∧ pl.isFileSeparator c = false) ∨
      ∃ run rest, path = '~' :: (run ++ rest) ∧ (∀ c ∈ run, pl.isFileSeparator c) ∧
        (∀ c, rest.head? = some c → pl.isFileSeparator c = false) ∧ (run = [] → rest = []) := by
  cases path with
  | nil => exact .inl (.inl (by simp))
  | cons first path =>
      by_cases hfirst : first = '~'
      · subst first
        by_cases hsecond : ∃ c, path.head? = some c ∧ pl.isFileSeparator c = false
        · obtain ⟨c, hc, hsep⟩ := hsecond
          exact .inl (.inr ⟨c, by simpa [List.head?_eq_getElem?] using hc, hsep⟩)
        · refine .inr ⟨path.takeWhile pl.isFileSeparator, path.dropWhile pl.isFileSeparator, ?_,
            fun c hc => List.mem_takeWhile_imp hc, fun c hc => ?_, fun hrun => ?_⟩
          · rw [List.takeWhile_append_dropWhile]
          · have hnot := List.head?_dropWhile_not pl.isFileSeparator path
            rw [hc] at hnot
            simpa using hnot
          · cases path with
            | nil => rfl
            | cons c path =>
                have hc : pl.isFileSeparator c = true := by
                  by_contra hnot
                  exact hsecond ⟨c, rfl, Bool.eq_false_iff.mpr hnot⟩
                rw [List.takeWhile_cons_of_pos hc] at hrun
                cases hrun
      · exact .inl (.inl (fun h => hfirst (Option.some.inj h)))

theorem expanduser_of_kept (h : path.head? ≠ some '~' ∨
    ∃ c, path[1]? = some c ∧ pl.isFileSeparator c = false) : expanduser pl env path = path := by
  rw [expanduser]
  split
  · rename_i hnil
    exact (List.isEmpty_iff.mp hnil).symm
  · obtain hhead | ⟨c, hc, hsep⟩ := h
    · rw [if_pos hhead]
    · obtain ⟨hlen, -⟩ := List.getElem?_eq_some_iff.mp hc
      have hsecond : 1 < path.length ∧ ¬ path[1]?.any pl.isFileSeparator := by
        refine ⟨hlen, ?_⟩
        rw [hc, Option.any_some, hsep]
        exact Bool.false_ne_true
      rw [if_pos hsecond, ite_self]

/-- What a tilde with separators behind it becomes: the home directory alone only
where the path has fewer than three characters. -/
theorem expanduser_of_run {run rest : Str} (hhome : getHomedir pl env ≠ [])
    (hrun : ∀ c ∈ run, pl.isFileSeparator c)
    (hrest : ∀ c, rest.head? = some c → pl.isFileSeparator c = false)
    (hnil : run = [] → rest = []) :
    expanduser pl env ('~' :: (run ++ rest)) =
      if run.length + rest.length < 2 then getHomedir pl env
      else pushSeparator pl (getHomedir pl env) ++ rest := by
  have hsecond : ¬ (1 < ('~' :: (run ++ rest)).length ∧
      ¬ ('~' :: (run ++ rest))[1]?.any pl.isFileSeparator) := by
    rintro ⟨hlen, hany⟩
    cases run with
    | nil =>
        rw [hnil rfl] at hlen
        exact absurd hlen (by decide)
    | cons c run => exact hany (by simpa using hrun c List.mem_cons_self)
  have hshort : ((getHomedir pl env).isEmpty = true ∨ ('~' :: (run ++ rest)).length < 3) ↔
      run.length + rest.length < 2 := by
    rw [List.isEmpty_iff, or_iff_right hhome, List.length_cons, List.length_append]
    omega
  rw [expanduser, if_neg (by simp), if_neg (by simp), if_neg hsecond]
  dsimp only
  by_cases hlen : run.length + rest.length < 2
  · rw [if_pos hlen, if_pos (hshort.mpr hlen)]
  · rw [if_neg hlen, if_neg (fun h => hlen (hshort.mp h))]
    cases run with
    | nil =>
        rw [hnil rfl] at hlen
        exact absurd (by decide) hlen
    | cons c run =>
        have hdrop : ('~' :: (c :: run ++ rest)).drop 2 = run ++ rest := rfl
        have hskip := Scan.drop_findFirstNot hdrop
          (fun d hd => hrun d (List.mem_cons_of_mem _ hd)) hrest
        cases hfind : Scan.findFirstNot pl.isFileSeparator ('~' :: (c :: run ++ rest)) 2 with
        | none =>
            rw [hfind, Option.elim_none] at hskip
            rw [← hskip]
            exact (List.append_nil _).symm
        | some i =>
            rw [hfind, Option.elim_some] at hskip
            dsimp only
            rw [hskip]

theorem pushSeparator_eq_self_iff {h : Str} :
    pushSeparator pl h = h ↔ h.getLast?.any pl.isFileSeparator := by
  rw [pushSeparator]
  split
  · rename_i hsep
    exact iff_of_true rfl hsep
  · rename_i hsep
    refine iff_of_false (fun heq => ?_) hsep
    exact absurd (congrArg List.length heq) (by simp)

theorem run_unique {run run' rest rest' : Str} (h : run ++ rest = run' ++ rest')
    (hrun : ∀ c ∈ run, pl.isFileSeparator c) (hrun' : ∀ c ∈ run', pl.isFileSeparator c)
    (hrest : ∀ c, rest.head? = some c → pl.isFileSeparator c = false)
    (hrest' : ∀ c, rest'.head? = some c → pl.isFileSeparator c = false) :
    run = run' ∧ rest = rest' := by
  have htake : ∀ {run rest : Str}, (∀ c ∈ run, pl.isFileSeparator c) →
      (∀ c, rest.head? = some c → pl.isFileSeparator c = false) →
      (run ++ rest).takeWhile pl.isFileSeparator = run := by
    intro run rest hrun hrest
    rw [List.takeWhile_append_of_pos hrun]
    cases rest with
    | nil => exact List.append_nil run
    | cons c rest =>
        rw [List.takeWhile_cons_of_neg (by rw [hrest c rfl]; decide), List.append_nil]
  have hfront : run = run' := by
    rw [← htake hrun hrest, ← htake hrun' hrest', h]
  exact ⟨hfront, List.append_cancel_left (hfront ▸ h)⟩

theorem not_kept_of_run {run rest : Str} (hrun : ∀ c ∈ run, pl.isFileSeparator c)
    (hnil : run = [] → rest = []) :
    ¬ (('~' :: (run ++ rest)).head? ≠ some '~' ∨
      ∃ c, ('~' :: (run ++ rest))[1]? = some c ∧ pl.isFileSeparator c = false) := by
  rintro (hhead | ⟨c, hc, hsep⟩)
  · exact hhead rfl
  · cases run with
    | nil =>
        rw [hnil rfl] at hc
        cases hc
    | cons d run =>
        obtain rfl : d = c := Option.some.inj hc
        rw [hrun d List.mem_cons_self] at hsep
        cases hsep

/-- For a path that is kept the rule has one result. -/
theorem expandsUser_of_kept_iff {h r : Str} (hkept : path.head? ≠ some '~' ∨
    ∃ c, path[1]? = some c ∧ pl.isFileSeparator c = false) :
    ExpandsUser pl h path r ↔ r = path := by
  refine ⟨fun hrule => hrule.kept hkept, fun hr => ⟨fun _ => hr, ?_, ?_⟩⟩
  · intro run hpath hrun
    rw [hpath, ← List.append_nil run] at hkept
    exact absurd hkept (not_kept_of_run hrun (fun _ => rfl))
  · intro run c rest hpath hne hrun _
    rw [hpath] at hkept
    exact absurd hkept (not_kept_of_run hrun (fun hnil => absurd hnil hne))

/-- For a run of separators behind the tilde, however long, the rule has one result. -/
theorem expandsUser_of_run_iff {h r run rest : Str} (hrun : ∀ c ∈ run, pl.isFileSeparator c)
    (hrest : ∀ c, rest.head? = some c → pl.isFileSeparator c = false)
    (hnil : run = [] → rest = []) :
    ExpandsUser pl h ('~' :: (run ++ rest)) r ↔
      r = if rest = [] then h else pushSeparator pl h ++ rest := by
  constructor
  · intro hrule
    cases rest with
    | nil => exact hrule.home run (by rw [List.append_nil]) hrun
    | cons c rest =>
        rw [if_neg (List.cons_ne_nil c rest)]
        exact hrule.below run c rest rfl (fun h => List.cons_ne_nil c rest (hnil h)) hrun
          (hrest c rfl)
  · intro hr
    refine ⟨fun hkept => absurd hkept (not_kept_of_run hrun hnil), ?_, ?_⟩
    · intro run' hpath hrun'
      have hcut : run ++ rest = run' ++ [] := by
        rw [List.append_nil]
        exact (List.cons.inj hpath).2
      rw [hr, if_pos (run_unique hcut hrun hrun' hrest (by simp)).2]
    · intro run' c rest' hpath _ hrun' hc
      obtain ⟨-, rfl⟩ := run_unique (List.cons.inj hpath).2 hrun hrun' hrest (by simpa using hc)
      rw [hr, if_neg (List.cons_ne_nil c rest')]

/-- The rule holds unless two or more separators and nothing else follow the tilde,
where the home directory gets a separator that it does not end in. -/
theorem expandsUser_iff (pl : Platform) (env : HomeEnv) (path : Str)
    (hhome : getHomedir pl env ≠ []) :
    ExpandsUser pl (getHomedir pl env) path (expanduser pl env path) ↔
      ¬ (∃ run, path = '~' :: run ∧ 2 ≤ run.length ∧ ∀ c ∈ run, pl.isFileSeparator c) ∨
        (getHomedir pl env).getLast?.any pl.isFileSeparator := by
  obtain hkept | ⟨run, rest, rfl, hrun, hrest, hnil⟩ := expanduser_forms pl path
  · refine iff_of_true ((expandsUser_of_kept_iff hkept).mpr (expanduser_of_kept hkept)) (.inl ?_)
    rintro ⟨run, hpath, -, hrun⟩
    rw [hpath, ← List.append_nil run] at hkept
    exact not_kept_of_run hrun (fun _ => rfl) hkept
  · rw [expandsUser_of_run_iff hrun hrest hnil, expanduser_of_run hhome hrun hrest hnil]
    cases rest with
    | nil =>
        rw [if_pos rfl, List.append_nil, List.append_nil, List.length_nil, Nat.add_zero]
        by_cases hlen : run.length < 2
        · rw [if_pos hlen]
          refine iff_of_true rfl (.inl ?_)
          rintro ⟨run', hpath, hlen', -⟩
          rw [(List.cons.inj hpath).2] at hlen
          omega
        · rw [if_neg hlen, pushSeparator_eq_self_iff, or_iff_right]
          exact not_not.mpr ⟨run, rfl, by omega, hrun⟩
    | cons c rest =>
        have hpos := List.length_pos_iff.mpr (fun h => List.cons_ne_nil c rest (hnil h))
        rw [if_neg (List.cons_ne_nil c rest), if_neg (by rw [List.length_cons]; omega)]
        refine iff_of_true rfl (.inl ?_)
        rintro ⟨run', hpath, -, hrun'⟩
        have hcut : run ++ c :: rest = run' ++ [] := by
          rw [List.append_nil]
          exact (List.cons.inj hpath).2
        exact List.cons_ne_nil c rest (run_unique hcut hrun hrun' hrest (by simp)).2

def homeOfUser : HomeEnv := { getenv := fun _ => some "/home/u".toList, profileDir := [] }

theorem expandsUser_duplicate_separators :
    ExpandsUser .posix "/home/u".toList "~//.ssh".toList
      (expanduser .posix homeOfUser "~//.ssh".toList) := by
  refine (expandsUser_iff .posix homeOfUser "~//.ssh".toList (by decide)).mpr (.inl ?_)
  rintro ⟨run, hpath, -, hrun⟩
  have hmem : 's' ∈ run := by
    rw [← (List.cons.inj hpath).2]
    decide
  exact absurd (hrun 's' hmem) (by decide)

/-- Two separators behind the tilde leave one at the end. -/
theorem not_expandsUser_of_two_separators :
    ¬ ∀ (pl : Platform) (env : HomeEnv) (path : Str), getHomedir pl env ≠ [] →
      ExpandsUser pl (getHomedir pl env) path (expanduser pl env path) := by
  intro h
  have hresult := (h .posix homeOfUser "~//".toList (by decide)).home "//".toList rfl
    (List.all_eq_true.mp (by decide))
  exact absurd hresult (by decide)

end Rule

end Ffilesystem
