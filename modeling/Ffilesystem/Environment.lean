import Ffilesystem.Home
import Ffilesystem.Library.Store
import Ffilesystem.OsString
import Ffilesystem.System

/-!
# Environment variables on POSIX systems

The environment is a list of names with their values, as a process gets it at its
start, and a name may be in it more than once. `setenv` with an empty value
removes the variable, and it turns away a name that no variable can have.

A run of `setenv` requests does what the same changes do to a function of the
names, so `getenv` gives what the last request for a name has left, or what was
there at first (`getenv_setenvs`). The C library looks for a text that goes on with
`=` behind the name. A name with `=` in it can be found, too: as a variable whose
value begins with the rest of the name.
-/

namespace Ffilesystem

/-- A name that a variable can have. -/
def IsEnvName (s : Str) : Prop := s ≠ [] ∧ '=' ∉ s ∧ '\x00' ∉ s

instance : DecidablePred IsEnvName := fun s => by
  unfold IsEnvName
  infer_instance

abbrev EnvName := { s : Str // IsEnvName s }

abbrev Environ := List (EnvName × CText)

/-- The variable that a C string names. -/
def envName (name : Str) : Option EnvName :=
  if h : IsEnvName (cStr name) then some ⟨cStr name, h⟩ else none

/-- A variable as it stands in `environ`. -/
def envText (var : EnvName × CText) : Str := var.1.1 ++ '=' :: var.2.1

/-- `getenv`, as the GNU C library searches. -/
def getenv (env : Environ) (name : Str) : Option Str :=
  if cStr name = [] then none
  else env.findSome? fun var => (envText var).dropPrefix? (cStr name ++ ['='])

/-- `setenv`. The system may have no room for another value. -/
def setenv (full : Bool) (env : Environ) (name value : Str) : Bool × Environ :=
  match envName name with
  | some n =>
      if value.isEmpty then (true, Store.drop n env)
      else if full then (false, env)
      else (true, Store.write n ⟨cStr value, nul_not_mem_cStr value⟩ env)
  | none => (false, env)

/-- The variables of the environment, for the functions that ask for the home
directory. -/
def homeEnv (env : Environ) (profileDir : Str) : HomeEnv := ⟨getenv env, profileDir⟩

/-- A request to `setenv`. -/
structure SetRequest where
  full : Bool
  name : Str
  value : Str
  deriving Repr

def setenvs (env : Environ) (requests : List SetRequest) : Environ :=
  requests.foldl (fun env r => (setenv r.full env r.name r.value).2) env

/-- The change that a request makes: to which variable, and what it gives then. A
value is written up to its first null character, and only a value without any
characters removes. -/
def SetRequest.change (r : SetRequest) : Option (EnvName × Option CText) :=
  match envName r.name with
  | some n =>
      if r.value = [] then some (n, none)
      else if r.full then none
      else some (n, some ⟨cStr r.value, nul_not_mem_cStr r.value⟩)
  | none => none

section Runs

/-- One request does what its change does to the view of the environment. -/
theorem view_setenv (env : Environ) (r : SetRequest) :
    Store.view (setenv r.full env r.name r.value).2 =
      r.change.elim (Store.view env) fun change =>
        Function.update (Store.view env) change.1 change.2 := by
  rw [setenv, SetRequest.change]
  split
  · rename_i n hn
    by_cases hempty : r.value = []
    · rw [if_pos (List.isEmpty_iff.mpr hempty), if_pos hempty]
      exact Store.view_drop n env
    · rw [if_neg (fun h => hempty (List.isEmpty_iff.mp h)), if_neg hempty]
      by_cases hfull : r.full = true
      · rw [if_pos hfull, if_pos hfull]
        rfl
      · rw [if_neg hfull, if_neg hfull]
        exact Store.view_write n _ env
  · rfl

theorem setenv_fst_eq_true_iff (env : Environ) (r : SetRequest) :
    (setenv r.full env r.name r.value).1 = true ↔ r.change.isSome = true := by
  rw [setenv, SetRequest.change]
  split
  · by_cases hempty : r.value = []
    · rw [if_pos (List.isEmpty_iff.mpr hempty), if_pos hempty]
      exact iff_of_true rfl rfl
    · rw [if_neg (fun h => hempty (List.isEmpty_iff.mp h)), if_neg hempty]
      by_cases hfull : r.full = true
      · rw [if_pos hfull, if_pos hfull]
        exact iff_of_false Bool.false_ne_true Bool.false_ne_true
      · rw [if_neg hfull, if_neg hfull]
        exact iff_of_true rfl rfl
  · exact iff_of_false Bool.false_ne_true Bool.false_ne_true

/-- A run of requests does what their changes do, one after the other. -/
theorem view_setenvs (env : Environ) (requests : List SetRequest) :
    Store.view (setenvs env requests) =
      (requests.filterMap SetRequest.change).foldl
        (fun s change => Function.update s change.1 change.2) (Store.view env) := by
  induction requests generalizing env with
  | nil => rfl
  | cons r rest ih =>
      rw [setenvs, List.foldl_cons]
      refine (ih _).trans ?_
      rw [view_setenv]
      cases hchange : r.change with
      | none => rw [List.filterMap_cons_none hchange]; rfl
      | some change => rw [List.filterMap_cons_some hchange]; rfl

theorem nodup_setenvs {env : Environ} (h : (Store.keys env).Nodup)
    (requests : List SetRequest) : (Store.keys (setenvs env requests)).Nodup := by
  refine List.foldlRecOn (motive := fun env => (Store.keys env).Nodup) requests _ h ?_
  intro env henv r _
  rw [setenv]
  split
  · split
    · exact Store.nodup_drop _ henv
    · split
      · exact henv
      · exact Store.nodup_write _ _ henv
  · exact henv

/-- One text with `=` begins another where their parts in front of it agree, and the rest
of the one begins the rest of the other. -/
theorem dropPrefix?_append_cons {n front : Str} (hn : '=' ∉ n) (hfront : '=' ∉ front)
    (v behind : Str) : (n ++ '=' :: v).dropPrefix? (front ++ '=' :: behind) =
      if n = front then v.dropPrefix? behind else none := by
  induction n generalizing front with
  | nil =>
      cases front with
      | nil => simp [List.dropPrefix?]
      | cons c front =>
          have hc : '=' ≠ c := List.ne_of_not_mem_cons hfront
          simp [List.dropPrefix?, hc]
  | cons d n ih =>
      have hd : '=' ≠ d := List.ne_of_not_mem_cons hn
      cases front with
      | nil => simp [List.dropPrefix?, Ne.symm hd]
      | cons c front =>
          rw [List.cons_append, List.cons_append, List.dropPrefix?,
            ih (List.not_mem_of_not_mem_cons hn) (List.not_mem_of_not_mem_cons hfront)]
          by_cases hdc : d = c
          · simp [hdc]
          · simp [hdc]

theorem dropPrefix?_envText (var : EnvName × CText) {front behind : Str} (hfront : '=' ∉ front) :
    (envText var).dropPrefix? (front ++ '=' :: behind) =
      if var.1.1 = front then var.2.1.dropPrefix? behind else none :=
  dropPrefix?_append_cons var.1.2.2.1 hfront var.2.1 behind

/-- A text that is cut at its first `=` names a variable by its first part, if any. -/
theorem findSome?_envText (env : Environ) {front behind : Str} (hnul : '\x00' ∉ front)
    (hfront : '=' ∉ front) (h : behind = [] ∨ (Store.keys env).Nodup) :
    (env.findSome? fun var => (envText var).dropPrefix? (front ++ '=' :: behind)) =
      (envName front).bind fun n =>
        (Store.view env n).bind fun value => value.1.dropPrefix? behind := by
  simp only [dropPrefix?_envText _ hfront]
  rw [envName]
  split
  · rename_i hname
    rw [Option.bind_some, ← Store.findSome?_key]
    · refine congrArg (fun f => List.findSome? f env) (funext fun var => if_congr ?_ rfl rfl)
      rw [Subtype.ext_iff]
      exact Eq.congr_right (cStr_of_not_mem hnul).symm
    · refine h.imp_left fun hnil v => ?_
      rw [hnil, List.dropPrefix?_nil]
      exact Option.some_ne_none _
  · rename_i hname
    rw [Option.bind_none, List.findSome?_eq_none_iff]
    intro var _
    apply if_neg
    rintro rfl
    exact hname (by rw [cStr_of_not_mem hnul]; exact var.1.2)

theorem getenv_eq {env : Environ} {name front behind : Str}
    (hcut : cStr name ++ ['='] = front ++ '=' :: behind) (hfront : '=' ∉ front)
    (h : behind = [] ∨ (Store.keys env).Nodup) :
    getenv env name = (envName front).bind fun n =>
      (Store.view env n).bind fun value => value.1.dropPrefix? behind := by
  have hnul : '\x00' ∉ front := by
    intro hmem
    have hall := List.mem_append_left ('=' :: behind) hmem
    rw [← hcut, List.mem_append] at hall
    exact hall.elim (nul_not_mem_cStr name) (by decide)
  have hsearch := findSome?_envText env hnul hfront h
  rw [← hcut] at hsearch
  rw [getenv]
  split
  · rename_i hnil
    rw [hnil] at hcut
    cases front with
    | nil => rfl
    | cons c front => exact absurd (congrArg List.length hcut) (by simp)
  · exact hsearch

/-- The value that a variable has after a run of requests. -/
def lastValue (env : Environ) (requests : List SetRequest) (n : EnvName) : Option CText :=
  (Store.view (requests.filterMap SetRequest.change).reverse n).getD (Store.view env n)

/-- After any run of requests a variable has the value that the last request for it
gave, as far as that request succeeded, or else the value it had before. A name with `=`
in it finds a variable whose value begins with the rest of the name and one more `=`,
where no variable stands twice in the environment. -/
theorem getenv_setenvs (env : Environ) (requests : List SetRequest) (name : Str) :
    ('=' ∉ cStr name → getenv (setenvs env requests) name =
      (envName name).bind fun n => (lastValue env requests n).map Subtype.val) ∧
    ∀ front behind, cStr name = front ++ '=' :: behind → '=' ∉ front →
      (Store.keys env).Nodup → getenv (setenvs env requests) name =
        (envName front).bind fun n => (lastValue env requests n).bind fun value =>
          value.1.dropPrefix? (behind ++ ['=']) := by
  have hview : ∀ n, Store.view (setenvs env requests) n = lastValue env requests n := by
    intro n
    rw [view_setenvs, Store.foldl_update_apply, lastValue]
  constructor
  · intro hname
    have hcut : cStr name ++ ['='] = cStr name ++ '=' :: [] := rfl
    rw [getenv_eq hcut hname (.inl rfl)]
    simp only [hview, List.dropPrefix?_nil]
    rw [envName, envName, cStr_of_not_mem (nul_not_mem_cStr name)]
    simp only [Option.map_eq_bind]
    rfl
  · intro front behind hcut hfront hnodup
    have hcut' : cStr name ++ ['='] = front ++ '=' :: (behind ++ ['=']) := by
      rw [hcut, List.append_assoc, List.cons_append]
    rw [getenv_eq hcut' hfront (.inr (nodup_setenvs hnodup requests))]
    simp only [hview]

end Runs

section Tempdir

/-- The variables that `std::filesystem::temp_directory_path` asks for, in order. -/
def tempVars : List Str := ["TMPDIR".toList, "TMP".toList, "TEMP".toList, "TEMPDIR".toList]

/-- `std::filesystem::temp_directory_path`, which fails where its path is no
directory. -/
def tempDirectoryPath (env : Environ) (sys : System) : Option Str :=
  let p := (tempVars.findSome? (getenv env)).getD "/tmp".toList
  if sys.isDirectory p then some p else none

/-- The lines of `get_tempdir` that both backends have. -/
def tmpdirOrTmp (env : Environ) (sys : System) : Str :=
  let tempdir := (getenv env "TMPDIR".toList).getD "/tmp".toList
  if sys.isDirectory tempdir then tempdir else []

def getTempdir (b : Backend) (env : Environ) (sys : System) : Str :=
  match b with
  | .c => tmpdirOrTmp env sys
  | .cxxFilesystem =>
      match tempDirectoryPath env sys with
      | some p => if p.isEmpty then tmpdirOrTmp env sys else p
      | none => tmpdirOrTmp env sys

variable {env : Environ} {sys : System}

theorem ne_nil_of_isDirectory {path : Str} (h : sys.isDirectory path = true) : path ≠ [] := by
  rintro rfl
  cases h

theorem getenv_tmpdir_of_findSome?_eq_none (h : tempVars.findSome? (getenv env) = none) :
    getenv env "TMPDIR".toList = none :=
  List.findSome?_eq_none_iff.mp h _ List.mem_cons_self

/-- `TMPDIR` is asked for first. -/
theorem findSome?_tempVars_of_some {t : Str} (h : getenv env "TMPDIR".toList = some t) :
    tempVars.findSome? (getenv env) = some t := by
  rw [tempVars, List.findSome?_cons_of_isSome (by rw [h]; rfl), h]

theorem tmpdirOrTmp_of_none (h : getenv env "TMPDIR".toList = none) :
    tmpdirOrTmp env sys = if sys.isDirectory "/tmp".toList then "/tmp".toList else [] := by
  rw [tmpdirOrTmp, h]
  rfl

theorem tmpdirOrTmp_of_some {t : Str} (h : getenv env "TMPDIR".toList = some t) :
    tmpdirOrTmp env sys = if sys.isDirectory t then t else [] := by
  rw [tmpdirOrTmp, h]
  rfl

/-- The `<filesystem>` backend takes the first of its variables that is set, where
that is a directory, and does as the C backend does elsewhere. -/
theorem getTempdir_cxxFilesystem (env : Environ) (sys : System) :
    getTempdir .cxxFilesystem env sys =
      ((tempVars.findSome? (getenv env)).filter sys.isDirectory).getD (tmpdirOrTmp env sys) := by
  rw [getTempdir, tempDirectoryPath]
  cases hfirst : tempVars.findSome? (getenv env) with
  | none =>
      rw [Option.getD_none, Option.filter_none, Option.getD_none,
        tmpdirOrTmp_of_none (getenv_tmpdir_of_findSome?_eq_none hfirst)]
      by_cases hdir : sys.isDirectory "/tmp".toList = true
      · simp only [if_pos hdir]
        rfl
      · simp only [if_neg hdir]
  | some t =>
      rw [Option.getD_some, Option.filter_some]
      by_cases hdir : sys.isDirectory t = true
      · have hne : ¬ t.isEmpty = true := by
          intro hempty
          exact ne_nil_of_isDirectory hdir (List.isEmpty_iff.mp hempty)
        rw [if_pos hdir]
        exact if_neg hne
      · rw [if_neg hdir]
        rfl

/-- The two backends agree on the directory for temporary files, except where
another variable than `TMPDIR` leads only one of them to a directory. -/
theorem getTempdir_backends_iff (env : Environ) (sys : System) :
    getTempdir .c env sys = getTempdir .cxxFilesystem env sys ↔
      ∀ t, tempVars.findSome? (getenv env) = some t → sys.isDirectory t = true →
        getenv env "TMPDIR".toList = some t ∨ t = "/tmp".toList := by
  rw [getTempdir_cxxFilesystem, getTempdir]
  cases hfirst : tempVars.findSome? (getenv env) with
  | none =>
      refine iff_of_true rfl fun t ht => ?_
      cases ht
  | some t =>
      by_cases hdir : sys.isDirectory t = true
      · have htake : ((some t).filter sys.isDirectory).getD (tmpdirOrTmp env sys) = t := by
          rw [Option.filter_some, if_pos hdir]
          rfl
        rw [htake]
        constructor
        · intro heq t' ht' _
          obtain rfl : t = t' := Option.some.inj ht'
          cases htmpdir : getenv env "TMPDIR".toList with
          | some t' =>
              have hset := findSome?_tempVars_of_some htmpdir
              rw [hfirst] at hset
              exact .inl hset.symm
          | none =>
              rw [tmpdirOrTmp_of_none htmpdir] at heq
              split at heq
              · exact .inr heq.symm
              · exact absurd heq.symm (ne_nil_of_isDirectory hdir)
        · intro h
          rcases h t rfl hdir with htmpdir | rfl
          · rw [tmpdirOrTmp_of_some htmpdir, if_pos hdir]
          · cases htmpdir : getenv env "TMPDIR".toList with
            | some t' =>
                have hset := findSome?_tempVars_of_some htmpdir
                rw [hfirst] at hset
                rw [tmpdirOrTmp_of_some htmpdir, ← Option.some.inj hset, if_pos hdir]
            | none => rw [tmpdirOrTmp_of_none htmpdir, if_pos hdir]
      · refine iff_of_true ?_ fun t' ht' hdir' => ?_
        · rw [Option.filter_some, if_neg hdir]
          rfl
        · obtain rfl : t = t' := Option.some.inj ht'
          exact absurd hdir' hdir

end Tempdir

end Ffilesystem
