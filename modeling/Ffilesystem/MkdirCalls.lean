import Ffilesystem.Mkdir

/-!
# The calls that `mkdir` makes

The loop of `mkdir` with its calls in view. `mkdirRun` is the loop for calls that
may leave a trace also when they fail, and `mkdir` is an instance of it. Another
instance writes down each path and answers from a sequence of outcomes.

The loop stops at the first outcome that it does not tolerate. It tells the last
component from the others by its name, and so takes an earlier component of that
name for the last one.
-/

namespace Ffilesystem

/-- The loop over the components, for calls that say what went wrong, if anything. -/
def mkdirRun {σ : Type} (call : σ → Str → Option Errno × σ) (last : Option Str) :
    List Str → Str → Bool → σ → Bool × σ
  | [], _, ok, s => (ok, s)
  | part :: rest, buf, _, s =>
      let buf := buf ++ part ++ ['/']
      match call s buf with
      | (none, s) => mkdirRun call last rest buf true s
      | (some e, s) =>
          if e = .exist ∨ (e = .acces ∧ some part ≠ last) then
            mkdirRun call last rest buf true s
          else (false, s)

/-- What `mkdir` does with the resolved path. -/
def mkdirResolved {σ : Type} (call : σ → Str → Option Errno × σ) (rp : Str) (s : σ) :
    Bool × σ :=
  let parts := splitFilesep .posix rp
  let buf := if rp.head?.any (Platform.isFileSeparator .posix) then ['/'] else []
  mkdirRun call parts.getLast? parts buf false s

/-- A call that changes nothing when it fails. -/
def plainCall {σ : Type} (call : σ → Str → Except Errno σ) (s : σ) (buf : Str) :
    Option Errno × σ :=
  match call s buf with
  | .ok s => (none, s)
  | .error e => (some e, s)

/-- A call that is written down. Its outcome is the next one of a sequence. -/
def recordCall (outcome : Nat → Option Errno) (calls : List Str) (buf : Str) :
    Option Errno × List Str :=
  (outcome calls.length, calls ++ [buf])

theorem mkdirLoop_eq_mkdirRun {σ : Type} (call : σ → Str → Except Errno σ) (last : Option Str)
    (parts : List Str) (buf : Str) (ok : Bool) (s : σ) :
    mkdirLoop call last parts buf ok s = mkdirRun (plainCall call) last parts buf ok s := by
  induction parts generalizing buf ok s with
  | nil => rfl
  | cons part rest ih =>
      rw [mkdirLoop, mkdirRun, plainCall]
      cases call s (buf ++ part ++ ['/']) with
      | ok s' => exact ih _ _ _
      | error e =>
          dsimp only
          rw [ih]

/-- `mkdir` of a path is the run over its resolved path with the calls of the system. -/
theorem mkdir_eq_mkdirResolved (refuse : Refusals) (sys : System) {path : Str} (hne : path ≠ []) :
    mkdir refuse sys path =
      mkdirResolved (plainCall fun sys buf => sys.mkdirCall refuse buf)
        (resolve sys path false) sys := by
  rw [mkdir, if_neg (by simpa using hne), mkdirResolved]
  dsimp only
  rw [mkdirParts, mkdirLoop_eq_mkdirRun]

section Stop

/-- A run over `n` positions ends at `j`, which is the last position or the first
that is not tolerated. -/
structure StopsAt (tolerated : Nat → Prop) (n j : Nat) : Prop where
  lt : j < n
  before : ∀ i < j, tolerated i
  stop : j + 1 = n ∨ ¬ tolerated j

variable {tolerated tolerated' : Nat → Prop} {n j : Nat}

theorem StopsAt.forall_iff (h : StopsAt tolerated n j) :
    (∀ i < n, tolerated i) ↔ tolerated j := by
  constructor
  · exact fun hall => hall j h.lt
  · intro hj i hi
    obtain hlast | hstop := h.stop
    · obtain hlt | rfl : i < j ∨ i = j := by omega
      · exact h.before i hlt
      · exact hj
    · exact absurd hj hstop

theorem StopsAt.exists_iff (h : StopsAt tolerated n j)
    (hweaker : ∀ i < n, tolerated i → tolerated' i) :
    (∃ i < n, tolerated' i ∧ ¬ tolerated i ∧ ∀ k < i, tolerated' k) ↔
      tolerated' j ∧ ¬ tolerated j := by
  constructor
  · rintro ⟨i, hi, hweak, hstrict, hbefore⟩
    obtain hlt | rfl | hgt : i < j ∨ i = j ∨ j < i := by omega
    · exact absurd (h.before i hlt) hstrict
    · exact ⟨hweak, hstrict⟩
    · exact ⟨hbefore j hgt, h.stop.resolve_left (by omega)⟩
  · rintro ⟨hweak, hstrict⟩
    exact ⟨j, h.lt, hweak, hstrict, fun k hk => hweaker k (hk.trans h.lt) (h.before k hk)⟩

end Stop

section Visits

/-- The paths of the first `k` calls: one more component in each. -/
def prefixes (parts : List Str) (k : Nat) : List Str :=
  (List.range k).map fun i => dirBuf (parts.take (i + 1))

/-- The calls visit the components in order up to where a rule ends the run, and
the result says whether it tolerates all of them. -/
structure Visits (tolerated : Nat → Prop) (parts : List Str) (result : Bool × List Str) :
    Prop where
  calls : ∃ j, StopsAt tolerated parts.length j ∧ result.2 = prefixes parts (j + 1)
  ok : result.1 = true ↔ ∀ i < parts.length, tolerated i

/-- Access may be denied at every position but the last of `n`. -/
def ToleratedAt (n : Nat) (outcome : Nat → Option Errno) (i : Nat) : Prop :=
  outcome i = none ∨ outcome i = some .exist ∨ (outcome i = some .acces ∧ i + 1 < n)

/-- Access may be denied at every component that is not named as the last one is. -/
def ToleratedName (parts : List Str) (outcome : Nat → Option Errno) (i : Nat) : Prop :=
  outcome i = none ∨ outcome i = some .exist ∨
    (outcome i = some .acces ∧ parts[i]? ≠ parts.getLast?)

variable {parts front rest : List Str} {outcome : Nat → Option Errno}

@[simp] theorem length_prefixes (parts : List Str) (k : Nat) : (prefixes parts k).length = k := by
  rw [prefixes, List.length_map, List.length_range]

theorem prefixes_succ (parts : List Str) (k : Nat) :
    prefixes parts (k + 1) = prefixes parts k ++ [dirBuf (parts.take (k + 1))] := by
  rw [prefixes, List.range_succ, List.map_append]
  rfl

theorem getElem?_part {part : Str} (h : parts = front ++ part :: rest) :
    parts[front.length]? = some part := by
  rw [h, List.getElem?_append_right (Nat.le_refl _), Nat.sub_self]
  rfl

theorem recordCall_prefixes {part : Str} (h : parts = front ++ part :: rest) :
    recordCall outcome (prefixes parts front.length) (dirBuf front ++ part ++ ['/']) =
      (outcome front.length, prefixes parts (front.length + 1)) := by
  have htake : parts.take (front.length + 1) = front ++ [part] := by
    rw [h, List.take_length_add_append]
    rfl
  rw [recordCall, length_prefixes, prefixes_succ, htake, dirBuf_concat]

/-- Step lemma: a tolerated outcome lets the run go on to the next component. -/
theorem mkdirRun_tolerated {part : Str} (h : parts = front ++ part :: rest) (ok : Bool)
    (htol : ToleratedName parts outcome front.length) :
    mkdirRun (recordCall outcome) parts.getLast? (part :: rest) (dirBuf front) ok
        (prefixes parts front.length) =
      mkdirRun (recordCall outcome) parts.getLast? rest (dirBuf (front ++ [part])) true
        (prefixes parts (front ++ [part]).length) := by
  rw [mkdirRun, recordCall_prefixes h, ← dirBuf_concat, List.length_append, List.length_singleton]
  rw [ToleratedName, getElem?_part h] at htol
  cases hout : outcome front.length with
  | none => rfl
  | some e =>
      dsimp only
      rw [if_pos]
      simpa [hout] using htol

/-- Step lemma: any other outcome ends the run. -/
theorem mkdirRun_not_tolerated {part : Str} (h : parts = front ++ part :: rest) (ok : Bool)
    (htol : ¬ ToleratedName parts outcome front.length) :
    mkdirRun (recordCall outcome) parts.getLast? (part :: rest) (dirBuf front) ok
        (prefixes parts front.length) = (false, prefixes parts (front.length + 1)) := by
  rw [mkdirRun, recordCall_prefixes h]
  rw [ToleratedName, getElem?_part h] at htol
  cases hout : outcome front.length with
  | none => exact absurd (.inl hout) htol
  | some e =>
      dsimp only
      rw [if_neg]
      simpa [hout] using htol

/-- Run lemma: from a component on, with all before it tolerated. -/
theorem mkdirRun_visits (h : parts = front ++ rest) (hrest : rest ≠ [])
    (hbefore : ∀ i < front.length, ToleratedName parts outcome i) (ok : Bool) :
    Visits (ToleratedName parts outcome) parts
      (mkdirRun (recordCall outcome) parts.getLast? rest (dirBuf front) ok
        (prefixes parts front.length)) := by
  induction rest generalizing front ok with
  | nil => exact absurd rfl hrest
  | cons part rest ih =>
      have hlen : parts.length = front.length + (rest.length + 1) := by
        rw [h, List.length_append, List.length_cons]
      by_cases htol : ToleratedName parts outcome front.length
      · rw [mkdirRun_tolerated h ok htol]
        have hfront : ∀ i < (front ++ [part]).length, ToleratedName parts outcome i := by
          intro i hi
          rw [List.length_append, List.length_singleton] at hi
          obtain hlt | rfl : i < front.length ∨ i = front.length := by omega
          · exact hbefore i hlt
          · exact htol
        by_cases hlast : rest = []
        · subst hlast
          have hstop : StopsAt (ToleratedName parts outcome) parts.length front.length :=
            ⟨by omega, hbefore, .inl hlen.symm⟩
          rw [mkdirRun, List.length_append, List.length_singleton]
          exact ⟨⟨front.length, hstop, rfl⟩, iff_of_true rfl (hstop.forall_iff.mpr htol)⟩
        · exact ih (h.trans (List.append_cons _ _ _)) hlast hfront true
      · have hstop : StopsAt (ToleratedName parts outcome) parts.length front.length :=
          ⟨by omega, hbefore, .inr htol⟩
        rw [mkdirRun_not_tolerated h ok htol]
        refine ⟨⟨front.length, hstop, rfl⟩, iff_of_false Bool.false_ne_true ?_⟩
        exact fun hall => htol (hstop.forall_iff.mp hall)

/-- A run under the stricter of two rules is one under the other, unless an
outcome that only the other tolerates ends it. -/
theorem Visits.iff_of_weaker {tolerated tolerated' : Nat → Prop} {result : Bool × List Str}
    (h : Visits tolerated parts result)
    (hweaker : ∀ i < parts.length, tolerated i → tolerated' i) :
    Visits tolerated' parts result ↔
      ¬ ∃ i < parts.length, tolerated' i ∧ ¬ tolerated i ∧ ∀ k < i, tolerated' k := by
  obtain ⟨⟨j, hstop, hcalls⟩, hok⟩ := h
  rw [hstop.exists_iff hweaker, not_and_not_right]
  rw [hstop.forall_iff] at hok
  constructor
  · rintro ⟨⟨j', hstop', hcalls'⟩, hok'⟩ hj
    have heq : j' = j := by
      have hlen := congrArg List.length (hcalls'.symm.trans hcalls)
      simpa using hlen
    rw [heq] at hstop'
    rw [hstop'.forall_iff] at hok'
    exact hok.mp (hok'.mpr hj)
  · intro hj
    have hstop' : StopsAt tolerated' parts.length j :=
      ⟨hstop.lt, fun i hi => hweaker i (hi.trans hstop.lt) (hstop.before i hi),
        hstop.stop.imp_right (fun hnot hj' => hnot (hj hj'))⟩
    refine ⟨⟨j, hstop', hcalls⟩, ?_⟩
    rw [hstop'.forall_iff, hok]
    exact ⟨hweaker j hstop.lt, hj⟩

theorem dirBuf_eq {parts : List Str} (hne : parts ≠ []) :
    dirBuf parts = '/' :: ['/'].intercalate parts ++ ['/'] := by
  induction parts with
  | nil => exact absurd rfl hne
  | cons part rest ih =>
      by_cases hrest : rest = []
      · rw [hrest]
        simp [dirBuf, List.intercalate]
      · have htail := ih hrest
        rw [dirBuf, List.cons_append, List.cons_inj_right] at htail
        rw [dirBuf, List.flatMap_cons, htail, List.intercalate_cons_of_ne_nil hrest]
        simp

theorem isPrefix_of_mem_prefixes {buf : Str} {k : Nat} (hne : parts ≠ [])
    (h : buf ∈ prefixes parts k) : buf <+: '/' :: ['/'].intercalate parts ++ ['/'] := by
  obtain ⟨i, -, rfl⟩ := List.mem_map.mp h
  rw [← dirBuf_eq hne]
  have hcut : dirBuf parts =
      dirBuf (parts.take (i + 1)) ++ (parts.drop (i + 1)).flatMap (· ++ ['/']) := by
    rw [dirBuf, dirBuf, List.cons_append, ← List.flatMap_append, List.take_append_drop]
  rw [hcut]
  exact List.prefix_append _ _

/-- The two rules differ at earlier components with the name of the last one. -/
theorem toleratedAt_not_toleratedName_iff {i : Nat} :
    (ToleratedAt parts.length outcome i ∧ ¬ ToleratedName parts outcome i) ↔
      i + 1 < parts.length ∧ parts[i]? = parts.getLast? ∧ outcome i = some .acces := by
  rw [ToleratedAt, ToleratedName]
  cases outcome i with
  | none => simp
  | some e => cases e <;> simp [and_comm]

theorem toleratedAt_of_toleratedName {i : Nat} (hi : i < parts.length)
    (h : ToleratedName parts outcome i) : ToleratedAt parts.length outcome i := by
  obtain hok | hexist | ⟨hacces, hname⟩ := h
  · exact .inl hok
  · exact .inr (.inl hexist)
  · refine .inr (.inr ⟨hacces, ?_⟩)
    by_contra hlast
    have hi' : i = parts.length - 1 := by omega
    rw [hi', ← List.getLast?_eq_getElem?] at hname
    exact hname rfl

/-- `mkdir` visits the resolved path as positions demand, unless access is denied
at an earlier component that is named as the last one. -/
theorem mkdirResolved_visits_iff (outcome : Nat → Option Errno) {rp : Str}
    (hroot : isRooted rp = true) (hne : splitFilesep .posix rp ≠ []) :
    Visits (ToleratedAt (splitFilesep .posix rp).length outcome) (splitFilesep .posix rp)
        (mkdirResolved (recordCall outcome) rp []) ↔
      ¬ ∃ i, i + 1 < (splitFilesep .posix rp).length ∧
        (splitFilesep .posix rp)[i]? = (splitFilesep .posix rp).getLast? ∧
        outcome i = some .acces ∧
        ∀ k < i, ToleratedAt (splitFilesep .posix rp).length outcome k := by
  have hbuf : (if rp.head?.any (Platform.isFileSeparator .posix) then ['/'] else []) =
      dirBuf [] := by
    rw [Platform.any_isFileSeparator_posix, if_pos]
    · rfl
    · simpa [isRooted] using hroot
  have hrun : Visits (ToleratedName (splitFilesep .posix rp) outcome) (splitFilesep .posix rp)
      (mkdirResolved (recordCall outcome) rp []) := by
    rw [mkdirResolved, hbuf]
    exact mkdirRun_visits (List.nil_append _).symm hne (fun i hi => absurd hi (Nat.not_lt_zero i))
      false
  rw [hrun.iff_of_weaker (fun i hi => toleratedAt_of_toleratedName hi), not_iff_not]
  refine exists_congr (fun i => ⟨?_, ?_⟩)
  · rintro ⟨hi, hweak, hstrict, hbefore⟩
    obtain ⟨hlast, hname, hacces⟩ := toleratedAt_not_toleratedName_iff.mp ⟨hweak, hstrict⟩
    exact ⟨hlast, hname, hacces, hbefore⟩
  · rintro ⟨hlast, hname, hacces, hbefore⟩
    have hi : i < (splitFilesep .posix rp).length := by omega
    obtain ⟨hweak, hstrict⟩ := toleratedAt_not_toleratedName_iff.mpr ⟨hlast, hname, hacces⟩
    exact ⟨hi, hweak, hstrict, hbefore⟩

theorem mkdirResolved_visits_denied :
    Visits (ToleratedAt (splitFilesep .posix "/a/b".toList).length fun _ => some .acces)
      (splitFilesep .posix "/a/b".toList)
      (mkdirResolved (recordCall fun _ => some .acces) "/a/b".toList []) := by
  apply (mkdirResolved_visits_iff (fun _ => some .acces) (by decide) (by decide +kernel)).mpr
  rintro ⟨i, hi, hname, -⟩
  have hlen : (splitFilesep .posix "/a/b".toList).length = 2 := by decide +kernel
  obtain rfl : i = 0 := by omega
  exact absurd hname (by decide +kernel)

/-- Denied at the first component of `"/a/b/a"`, which is named as the last one is,
the run ends. -/
theorem not_visits_of_repeated_name :
    ¬ ∀ (outcome : Nat → Option Errno) (rp : Str), isRooted rp = true →
      splitFilesep .posix rp ≠ [] →
      Visits (ToleratedAt (splitFilesep .posix rp).length outcome) (splitFilesep .posix rp)
        (mkdirResolved (recordCall outcome) rp []) := by
  intro h
  have hok := (h (fun i => if i = 0 then some .acces else none) "/a/b/a".toList (by decide)
    (by decide +kernel)).ok
  have hall : (mkdirResolved (recordCall fun i => if i = 0 then some .acces else none)
      "/a/b/a".toList []).1 = true := by
    rw [hok]
    intro i hi
    by_cases hzero : i = 0
    · rw [hzero]
      exact .inr (.inr ⟨rfl, by decide +kernel⟩)
    · exact .inl (if_neg hzero)
  exact absurd hall (by decide +kernel)

end Visits

end Ffilesystem
