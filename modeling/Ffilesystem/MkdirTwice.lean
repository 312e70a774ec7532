import Ffilesystem.Mkdir

/-!
# `mkdir` of a directory that is there

A second `mkdir` finds what the first one left. The resolved path may be another
one then, since the path may lead somewhere only with the new directories. Both
ways the components are there, unless the path leads to the root, which has none.
-/

namespace Ffilesystem

open FileTree Lexical

section Made

variable {sys : System}

/-- Once the directories are made that the moves need, something is there. -/
theorem occupied_addDirs {front rest : List (Move FileName)} {left : Nat} {R : List FileName}
    (hdown : ∀ before move behind, rest = before ++ move :: behind → behind ≠ [] →
      ∃ name, move = .down name)
    (hwalk : sys.tree.walk sys.maxLinks (.dir []) front = .ok (left, .dir R))
    (hfree : ∀ name, rest.head? = some (.down name) → sys.tree.lookup R name = none) :
    (sys.addDirs R rest).tree.Occupied (sys.addDirs R rest).maxLinks (front ++ rest) := by
  induction rest generalizing sys front R left with
  | nil =>
      rw [List.append_nil]
      exact Tree.occupied_of_walk hwalk
  | cons move rest ih =>
      by_cases hname : ∃ name, move = .down name
      · obtain ⟨name, rfl⟩ := hname
        have hdir : sys.tree.IsDir R := Tree.walk_stands (s := .dir []) Tree.isDir_root hwalk
        have hnone := hfree name rfl
        have hwalk' := walk_addEntry_fresh hdir hnone hwalk
        have hempty := lookup_addEntry_fresh hdir hnone
        rw [addDirs_down hdir hnone, List.append_cons front]
        apply ih _ hwalk' (fun other _ => hempty other)
        intro before move behind heq
        exact hdown (.down name :: before) move behind (by rw [heq, List.cons_append])
      · -- only the last move can be something else than a name
        obtain rfl : rest = [] := Decidable.byContradiction fun hne =>
          hname (hdown [] move rest rfl hne)
        rw [addDirs_not_down hname]
        exact Tree.occupied_concat hwalk fun name heq => absurd ⟨name, heq⟩ hname

end Made

section Resolved

variable {sys : System} {path : Str}

theorem System.Grows.absolute_eq {sys' : System} (h : sys.Grows sys') (path : Str) :
    absolute sys' path = absolute sys path := by
  rw [absolute, absolute, System.getCwd, System.getCwd, h.cwd_eq]

theorem resolve_ne_root_of_lacks {R : List FileName} {rest : List (Move FileName)}
    (hlacks : sys.tree.Lacks sys.maxLinks (resolvedMoves sys path) R rest) :
    resolve sys path false ≠ ['/'] := by
  intro hroot
  obtain ⟨front, name, behind, left, hmoves, rfl, -⟩ := hlacks
  rw [resolvedMoves, hroot, splitFilesep_root] at hmoves
  exact List.append_ne_nil_of_right_ne_nil front (List.cons_ne_nil _ _) hmoves.symm

end Resolved

section Twice

variable {sys : System} {path : Str} {refuse : Refusals}

theorem occupied_of_lacks {R : List FileName} {rest : List (Move FileName)} (hne : path ≠ [])
    (hlacks : sys.tree.Lacks sys.maxLinks (resolvedMoves sys path) R rest) :
    (sys.addDirs R rest).tree.Occupied (sys.addDirs R rest).maxLinks
      (resolvedMoves sys path) := by
  obtain ⟨texts, hnames, hresolve, -⟩ := resolve_eq sys hne
  have hmoves : resolvedMoves sys path = effective texts := by
    rw [resolvedMoves, hresolve, splitFilesep_absolute hnames]
  obtain ⟨front, name, behind, left, hsplit, rfl, hwalk, hnone⟩ := hlacks
  rw [hsplit]
  refine occupied_addDirs ?_ hwalk ?_
  · intro before move ahead heq
    have hcut : effective texts = (front ++ before) ++ move :: ahead := by
      rw [← hmoves, hsplit, heq, List.append_assoc]
    exact exists_down_of_effective hnames hcut
  · intro other heq
    obtain rfl := Move.down.inj (Option.some.inj heq)
    exact hnone

theorem mkdir_of_stat {spot : Spot FileName} (hne : path ≠ [])
    (hstat : sys.stat (absolute sys path) = .ok spot) (hspot : spot ≠ .dir [])
    (refuse : Refusals) : mkdir refuse sys path = (true, sys) := by
  apply (mkdir_makesPath refuse hne _).occupied (occupied_of_stat_absolute hne hstat)
  rwa [ne_eq, resolve_eq_root_iff hne hstat]

theorem mkdir_of_isDirectory (hne : path ≠ []) (hdir : sys.isDirectory path = true)
    (hroot : sys.stat path ≠ .ok (.dir [])) (refuse : Refusals) :
    mkdir refuse sys path = (true, sys) := by
  obtain ⟨R, hstat⟩ := isDirectory_eq_true_iff.mp hdir
  have hseen := (System.stat_eq_ok hstat).1
  apply mkdir_of_stat hne ((stat_absolute hseen).trans hstat)
  exact fun heq => hroot (heq ▸ hstat)

/-- Where the system sees nothing of a path, the absolute path is the current
directory with a slash behind it. -/
theorem stat_absolute_of_cStr_nil (sys : System) (hne : path ≠ []) (hnil : cStr path = []) :
    sys.stat (absolute sys path) = .ok (.dir sys.cwd) := by
  obtain ⟨c, rest, rfl⟩ := List.exists_cons_of_ne_nil hne
  obtain rfl : c = '\x00' := by
    by_contra hc
    rw [cStr_cons_of_ne hc] at hnil
    cases hnil
  have hcstr : cStr (absolute sys ('\x00' :: rest)) = sys.getCwd ++ ['/'] := by
    rw [absolute_of_not_rooted hne rfl, System.getCwd,
      cStr_append_of_not_mem (nul_not_mem_absString sys.cwd), cStr_cons_of_ne (by decide),
      cStr_cons_nul]
  have hwalk : sys.walkFrom (sys.getCwd ++ ['/'])
      (trail (sys.getCwd ++ ['/']) ++ endMove (sys.getCwd ++ ['/'])) =
        .ok (sys.maxLinks, .dir sys.cwd) := by
    have hend : endMove (sys.getCwd ++ ['/']) = [.stay] := by simp [endMove]
    rw [hend, trail_append_slash, trail_nil, List.append_nil, System.getCwd, trail_absString]
    exact (Tree.walk_names sys.cwd_isDir sys.maxLinks [.stay]).trans
      (by rw [Tree.walk_stay_cons, Tree.walk_nil]; rfl)
  apply System.stat_of_walkFrom sys.maxLinks
  · rw [hcstr]
    exact List.concat_ne_nil _ _
  · rw [hcstr, hwalk]

/-- After directories were made that a path lacked, its components are there. -/
theorem mkdir_after_addDirs {R : List FileName} {rest : List (Move FileName)} (hne : path ≠ [])
    (hlacks : sys.tree.Lacks sys.maxLinks (resolvedMoves sys path) R rest)
    (hroot : (sys.addDirs R rest).stat path ≠ .ok (.dir [])) (refuse : Refusals) :
    (mkdir refuse (sys.addDirs R rest) path).1 = true := by
  have hgrows := grows_addDirs sys R rest
  have hmissing : ∀ spot, sys.stat (absolute sys path) ≠ .ok spot := fun spot hspot =>
    (occupied_of_stat_absolute hne hspot).not_lacks hlacks
  have hseen : cStr path ≠ [] := fun hnil =>
    hmissing _ (stat_absolute_of_cStr_nil sys hne hnil)
  cases hstat : (sys.addDirs R rest).stat (absolute (sys.addDirs R rest) path) with
  | ok spot =>
      have hspot : spot ≠ .dir [] := by
        rintro rfl
        exact hroot ((stat_absolute hseen).symm.trans hstat)
      rw [mkdir_of_stat hne hstat hspot]
  | error e =>
      -- the path still names nothing, and its normal form is what it was
      have hsame : resolve (sys.addDirs R rest) path false = resolve sys path false := by
        cases hbefore : sys.stat (absolute sys path) with
        | ok spot => exact absurd hbefore (hmissing spot)
        | error e' =>
            rw [resolve_of_stat_error hne hstat, resolve_of_stat_error hne hbefore,
              hgrows.absolute_eq]
      have hmoves : resolvedMoves (sys.addDirs R rest) path = resolvedMoves sys path := by
        rw [resolvedMoves, hsame, resolvedMoves]
      have hcomponents : resolve (sys.addDirs R rest) path false ≠ ['/'] :=
        hsame ▸ resolve_ne_root_of_lacks hlacks
      have hoccupied := occupied_of_lacks hne hlacks
      rw [← hmoves] at hoccupied
      rw [(mkdir_makesPath refuse hne hcomponents).occupied hoccupied]

theorem mkdir_of_lacks {R : List FileName} {rest : List (Move FileName)} (hne : path ≠ [])
    (hlacks : sys.tree.Lacks sys.maxLinks (resolvedMoves sys path) R rest) :
    mkdir (fun _ => none) sys path = (true, sys.addDirs R rest) := by
  have hspec := mkdir_makesPath (fun _ => none) hne (resolve_ne_root_of_lacks hlacks)
  have hok := hspec.lacking (fun _ => rfl) R rest hlacks
  obtain ⟨hthere, -⟩ | ⟨R', rest', hlacks', hsys⟩ := hspec.sound hok
  · exact absurd hlacks hthere.not_lacks
  · obtain ⟨rfl, rfl⟩ := hlacks.unique hlacks'
    exact Prod.ext hok hsys

theorem mkdir_of_stat_root (hne : path ≠ []) (hstat : sys.stat path = .ok (.dir [])) :
    mkdir refuse sys path = (false, sys) := by
  have hseen := (System.stat_eq_ok hstat).1
  exact mkdir_of_resolve_root hne
    ((resolve_eq_root_iff hne ((stat_absolute hseen).trans hstat)).mpr rfl)

/-- A second `mkdir` of what the first one left succeeds, and the first one too
where the directory is there. -/
structure Idempotent (sys : System) (path : Str) : Prop where
  there : sys.isDirectory path = true → ∀ refuse, mkdir refuse sys path = (true, sys)
  again : ∀ refuse refuse', (mkdir refuse sys path).1 = true →
    (mkdir refuse' (mkdir refuse sys path).2 path).1 = true

/-- The path does not lead to the root directory, also not with the directories
made that its resolved path lacks. -/
structure AvoidsRoot (sys : System) (path : Str) : Prop where
  now : sys.stat path ≠ .ok (.dir [])
  made : ∀ R rest, sys.tree.Lacks sys.maxLinks (resolvedMoves sys path) R rest →
    (sys.addDirs R rest).stat path ≠ .ok (.dir [])

/-- `mkdir` is idempotent for all paths that keep away from the root directory,
which has no component to make. -/
theorem idempotent_iff (sys : System) (hne : path ≠ []) :
    Idempotent sys path ↔ AvoidsRoot sys path := by
  constructor
  · intro h
    refine ⟨fun hstat => ?_, fun R rest hlacks hstat => ?_⟩
    · have hdir : sys.isDirectory path = true := by
        rw [System.isDirectory, hstat]
        rfl
      have hmkdir := h.there hdir fun _ => none
      rw [mkdir_of_stat_root hne hstat] at hmkdir
      cases hmkdir
    · have hsecond := h.again (fun _ => none) (fun _ => none)
      rw [mkdir_of_lacks hne hlacks, mkdir_of_stat_root hne hstat] at hsecond
      exact absurd (hsecond rfl) Bool.false_ne_true
  · intro h
    refine ⟨fun hdir refuse => mkdir_of_isDirectory hne hdir h.now refuse, ?_⟩
    intro refuse refuse' hok
    have hspec := makesPath_of_ok hne hok
    obtain ⟨hoccupied, hsys⟩ | ⟨R, rest, hlacks, hsys⟩ := hspec.sound hok
    · rw [hsys]
      rw [(mkdir_makesPath refuse' hne (resolve_ne_root_of_ok hne hok)).occupied hoccupied]
    · rw [hsys]
      exact mkdir_after_addDirs hne hlacks (h.made R rest hlacks) refuse'

theorem idempotent_iff_at :
    Idempotent twoFiles "d/e".toList ↔ AvoidsRoot twoFiles "d/e".toList :=
  idempotent_iff twoFiles (by decide)

/-- The root directory is there, and `mkdir` fails on it. -/
theorem not_idempotent_root :
    ¬ ∀ (sys : System) (path : Str), path ≠ [] → Idempotent sys path := by
  intro h
  have hthere := (h twoFiles "/".toList (by decide)).there (by decide +kernel) fun _ => none
  exact absurd (congrArg Prod.fst hthere) (by decide +kernel)

end Twice

end Ffilesystem
