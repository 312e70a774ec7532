import Ffilesystem.Join
import Ffilesystem.Library.Ends
import Ffilesystem.Parent

/-!
# Lexical clean-up of Windows paths

On Windows `normal` converts the separators first, but its stack step and its
leading slash look at the path as given: the step knows only the slash as a
root, the leading slash is written for either separator. The drive is an
ordinary component of the stack. So the place that such a path walks to is the
one of its converted text, rooted by a slash and by nothing else.

`drop_slash` works on the converted text alone and closes a bare drive with a
slash, as `normal` does at its end.
-/

namespace Ffilesystem

open Lexical

def dropTrailingSlashOn (pl : Platform) (p : Str) : Str :=
  let p := match p with
    | [] => []
    | c :: rest => c :: rest.rdropWhile pl.isFileSeparator
  if pl.isWindows ∧ p ≠ [] ∧ p = rootName pl p then p ++ ['/'] else p

/-- `drop_slash`. The last step is `std::unique` with slashes that count as equal. -/
def dropSlash (pl : Platform) (path : Str) : Str :=
  if path.isEmpty then []
  else if pl.isWindows ∧ path.head? = some '\\' ∧ path[1]? = some '\\' then path
  else (dropTrailingSlashOn pl (asPosix pl path)).destutter fun a b => ¬ (a = '/' ∧ b = '/')

theorem dropTrailingSlashOn_posix (p : Str) :
    dropTrailingSlashOn .posix p = dropTrailingSlash p := by
  have hsep : Platform.posix.isFileSeparator = fun c => decide (c = '/') := by
    funext c
    exact Platform.isFileSeparator_posix c
  cases p with
  | nil => rfl
  | cons c rest => simp [dropTrailingSlashOn, dropTrailingSlash, hsep]

section Meaning

/-- The place that the converted components of a path walk to. -/
def placeOn (pl : Platform) (path : Str) : Place Name :=
  (Place.start (isRooted path)).walk (movesOf (asPosix pl path))

@[simp] theorem placeOn_posix (path : Str) : placeOn .posix path = place path := rfl

/-- The slash that `normal` writes first. -/
def leading (pl : Platform) (path : Str) : Str :=
  if path.head?.any pl.isFileSeparator then ['/'] else []

/-- A bare drive is closed with a slash. -/
def closeDrive (s : Str) : Str :=
  if s.length = 2 ∧ s[1]? = some ':' then s ++ ['/'] else s

theorem fsNormalSplit_asPosix (pl : Platform) (path : Str) :
    fsNormalSplit path (asPosix pl path) = parts (placeOn pl path) := by
  have h := foldl_fsNormalPush_parts path
    (fun piece (hp : piece ∈ Scan.components '/' (asPosix pl path)) =>
      (Scan.of_mem_components hp).2)
    (Place.start_rooted (isRooted path))
  rw [parts_start] at h
  rw [fsNormalSplit_eq, h]
  rfl

theorem normalEnd_windows_append_slash {s : Str} (h : s ≠ []) :
    normalEnd .windows (s ++ ['/']) = closeDrive s := by
  have hpos := List.length_pos_iff.mpr h
  have hlen : 1 < (s ++ ['/']).length := by
    rw [List.length_append, List.length_singleton]
    omega
  rw [normalEnd, if_pos hlen, closeDrive]
  by_cases hdrive : s.length = 2 ∧ s[1]? = some ':'
  · obtain ⟨a, b, rfl⟩ := List.length_eq_two.mp hdrive.1
    have hb : b = ':' := by simpa using hdrive.2
    rw [if_pos hdrive, hb]
    rfl
  · have hopen : (Platform.windows.isWindows && (s ++ ['/']).length == 3 &&
        (s ++ ['/'])[1]? == some ':') = false := by
      by_cases htwo : s.length = 2
      · have hcolon : s[1]? ≠ some ':' := fun hcolon => hdrive ⟨htwo, hcolon⟩
        rw [List.getElem?_append_left (by omega), beq_eq_false_iff_ne.mpr hcolon, Bool.and_false]
      · rw [List.length_append, List.length_singleton, beq_eq_false_iff_ne.mpr (by omega)]
        rfl
    rw [if_neg hdrive, hopen, Bool.false_and, Bool.not_false, Bool.and_true, List.getLast?_concat,
      List.dropLast_concat]
    rfl

/-- The normal form on Windows: the leading slash and the remaining components,
closed where they are a bare drive. -/
theorem normal_windows {path : Str} (h : path ≠ []) :
    normal .windows path =
      if parts (placeOn .windows path) = [] then
        if leading .windows path = [] then dot else leading .windows path
      else closeDrive
        (leading .windows path ++ ['/'].intercalate (parts (placeOn .windows path))) := by
  rw [normal, if_neg (by simpa using h)]
  dsimp only
  rw [fsNormalSplit_asPosix]
  by_cases hparts : parts (placeOn .windows path) = []
  · rw [if_pos hparts, hparts, List.foldl_nil, leading]
    split
    · rfl
    · rfl
  · rw [if_neg hparts, Scan.foldl_append_sep hparts]
    exact normalEnd_windows_append_slash
      (List.append_ne_nil_of_right_ne_nil _ (intercalate_parts_ne_nil hparts))

theorem components_closeDrive (s : Str) :
    Scan.components '/' (closeDrive s) = Scan.components '/' s := by
  rw [closeDrive]
  split
  · rw [Scan.components_append_cons, Scan.components_nil, List.append_nil]
  · rfl

/-- Where a slash comes first, the components can be read back. -/
theorem components_normal_windows {path : Str}
    (h : path.head?.any (Platform.isFileSeparator .windows)) :
    Scan.components '/' (normal .windows path) = parts (placeOn .windows path) := by
  have hne : path ≠ [] := by
    rintro rfl
    exact Bool.noConfusion h
  rw [normal_windows hne, leading, if_pos h]
  by_cases hparts : parts (placeOn .windows path) = []
  · rw [if_pos hparts, hparts, if_neg (List.cons_ne_nil _ _), Scan.components_cons_self,
      Scan.components_nil]
  · rw [if_neg hparts, components_closeDrive, List.singleton_append, Scan.components_cons_self,
      Scan.components_intercalate (parts_ok _)]

end Meaning

section Separators

variable {p q : Str}

theorem asPosix_windows_cons (c : Char) (path : Str) :
    asPosix .windows (c :: path) =
      (if c = '\\' then '/' else c) :: asPosix .windows path := rfl

theorem normal_windows_congr (h : asPosix .windows p = asPosix .windows q)
    (hhead : p.head? = q.head?) : normal .windows p = normal .windows q := by
  cases p with
  | nil =>
      have hq : q = [] := List.head?_eq_none_iff.mp hhead.symm
      rw [hq]
  | cons c p =>
      have hq : q ≠ [] := by
        rintro rfl
        cases hhead
      rw [normal_windows (List.cons_ne_nil c p), normal_windows hq, placeOn, placeOn, leading,
        leading, isRooted, isRooted, h, hhead]

/-- Behind a backslash the climb of the path is kept, behind a slash it is not. -/
theorem normal_windows_eq_iff_of_heads (h : asPosix .windows p = asPosix .windows q)
    (hp : p.head? = some '/') (hq : q.head? = some '\\') :
    normal .windows p = normal .windows q ↔
      ((Place.start false).walk (movesOf (asPosix .windows p))).ups = 0 := by
  have hp' : p.head?.any (Platform.isFileSeparator .windows) := by rw [hp]; rfl
  have hq' : q.head?.any (Platform.isFileSeparator .windows) := by rw [hq]; rfl
  have hplace : placeOn .windows p = (Place.start true).walk (movesOf (asPosix .windows p)) := by
    rw [placeOn, isRooted, hp]
    rfl
  have hplace' : placeOn .windows q = (Place.start false).walk (movesOf (asPosix .windows p)) := by
    rw [placeOn, isRooted, hq, h]
    rfl
  have hnames : (placeOn .windows p).names = (placeOn .windows q).names := by
    rw [hplace, hplace']
    exact Place.names_walk_congr ((Place.start_names true).trans (Place.start_names false).symm) _
  have hups : (placeOn .windows p).ups = 0 :=
    (placeOn .windows p).ups_of_rooted (by rw [hplace]; exact Place.walk_rooted _ _)
  rw [← hplace']
  constructor
  · intro heq
    have hparts := congrArg (Scan.components '/') heq
    rw [components_normal_windows hp', components_normal_windows hq', parts_eq, parts_eq, hups,
      hnames] at hparts
    have hlen := congrArg List.length hparts
    simp only [List.length_append, List.length_replicate] at hlen
    omega
  · intro hzero
    have hparts : parts (placeOn .windows p) = parts (placeOn .windows q) := by
      rw [parts_eq, parts_eq, hups, hzero, hnames]
    have hne : p ≠ [] := by
      rintro rfl
      cases hp
    have hne' : q ≠ [] := by
      rintro rfl
      cases hq
    rw [normal_windows hne, normal_windows hne', hparts, leading, leading, if_pos hp', if_pos hq']

/-- Characters that are converted alike are the same, or one separator each. -/
theorem eq_or_separators {c d : Char}
    (h : (if c = '\\' then '/' else c) = if d = '\\' then '/' else d) :
    c = d ∨ (c = '/' ∧ d = '\\') ∨ (c = '\\' ∧ d = '/') := by
  by_cases hc : c = '\\'
  · by_cases hd : d = '\\'
    · exact .inl (hc.trans hd.symm)
    · rw [if_pos hc, if_neg hd] at h
      exact .inr (.inr ⟨hc, h.symm⟩)
  · by_cases hd : d = '\\'
    · rw [if_neg hc, if_pos hd] at h
      exact .inr (.inl ⟨h, hd⟩)
    · rw [if_neg hc, if_neg hd] at h
      exact .inl h

theorem heads_of_asPosix_eq (h : asPosix .windows p = asPosix .windows q)
    (hhead : p.head? ≠ q.head?) :
    (p.head? = some '/' ∧ q.head? = some '\\') ∨ (p.head? = some '\\' ∧ q.head? = some '/') := by
  have hlen := congrArg List.length h
  rw [length_asPosix, length_asPosix] at hlen
  cases p with
  | nil =>
      have hq : q = [] := List.eq_nil_of_length_eq_zero hlen.symm
      exact absurd (by rw [hq]) hhead
  | cons c p =>
      cases q with
      | nil => cases hlen
      | cons d q =>
          rw [asPosix_windows_cons, asPosix_windows_cons] at h
          obtain rfl | ⟨rfl, rfl⟩ | ⟨rfl, rfl⟩ := eq_or_separators (List.cons.inj h).1
          · exact absurd rfl hhead
          · exact .inl ⟨rfl, rfl⟩
          · exact .inr ⟨rfl, rfl⟩

/-- The two separators are interchangeable in front of components that never
climb, and everywhere but in front. -/
theorem normal_windows_eq_iff (h : asPosix .windows p = asPosix .windows q) :
    normal .windows p = normal .windows q ↔
      p.head? = q.head? ∨
        ((Place.start false).walk (movesOf (asPosix .windows p))).ups = 0 := by
  by_cases hhead : p.head? = q.head?
  · exact iff_of_true (normal_windows_congr h hhead) (.inl hhead)
  rw [or_iff_right hhead]
  obtain ⟨hp, hq⟩ | ⟨hp, hq⟩ := heads_of_asPosix_eq h hhead
  · exact normal_windows_eq_iff_of_heads h hp hq
  · rw [eq_comm, h]
    exact normal_windows_eq_iff_of_heads h.symm hq hp

theorem normal_windows_eq_of_backslash :
    asPosix .windows "\\a/..".toList = asPosix .windows "/a\\..".toList ∧
      normal .windows "\\a/..".toList = normal .windows "/a\\..".toList :=
  ⟨by decide, (normal_windows_eq_iff (by decide)).mpr (.inr (by decide))⟩

/-- A backslash in front is no root to the stack step. -/
theorem normal_windows_ne_of_backslash :
    ¬ ∀ p q : Str, asPosix .windows p = asPosix .windows q →
      normal .windows p = normal .windows q := by
  intro h
  have heq := h "\\..".toList "/..".toList (by decide)
  rw [normal_windows (by decide), normal_windows (by decide)] at heq
  exact absurd heq (by decide)

end Separators

section Drives

/-- Two separators in front, as in the names of servers and devices. -/
def TwoSeparators (path : Str) : Prop :=
  path.head?.any (Platform.isFileSeparator .windows) ∧
    path[1]?.any (Platform.isFileSeparator .windows)

instance (path : Str) : Decidable (TwoSeparators path) := by
  unfold TwoSeparators
  infer_instance

/-- A clean-up keeps the drive, and keeps a path absolute or relative. -/
def KeepsRoot (f : Str → Str) (path : Str) : Prop :=
  rootName .windows (f path) = rootName .windows path ∧
    isAbsolute .windows (f path) = isAbsolute .windows path

/-- The slash in front, if there is one, and the first component that no `".."`
takes back. -/
def leftmost (path : Str) : Str :=
  leading .windows path ++ (parts (placeOn .windows path)).head?.getD []

variable {path : Str}

theorem rootName_windows (path : Str) :
    rootName .windows path = if path[1]? = some ':' then path.take 2 else [] := by
  obtain ⟨_, hcolon, hname, _⟩ | ⟨hnot, hname⟩ := rootName_cases .windows path
  · rw [if_pos hcolon, hname]
  · rw [if_neg (fun hcolon => hnot ⟨rfl, hcolon⟩), hname]

theorem isAbsolute_windows (path : Str) :
    isAbsolute .windows path =
      (path[1]? == some ':' && path[2]?.any (Platform.isFileSeparator .windows)) := by
  have hwin : Platform.windows.isWindows = true := rfl
  rw [isAbsolute, if_pos hwin, hasRootName, hasRootDirectory_eq]
  obtain ⟨_, hcolon, _, hlen⟩ | ⟨hnot, hname⟩ := rootName_cases .windows path
  · have hne : (rootName .windows path).isEmpty = false := by
      rw [List.isEmpty_eq_false_iff, ← List.length_pos_iff, hlen]
      exact Nat.zero_lt_two
    rw [hne, hlen, List.head?_drop, beq_iff_eq.mpr hcolon, Bool.not_false]
  · rw [hname, beq_eq_false_iff_ne.mpr (fun hcolon => hnot ⟨rfl, hcolon⟩)]
    rfl

/-- Only the first three characters count. -/
theorem keepsRoot_iff {f : Str → Str} :
    KeepsRoot f path ↔
      if path[1]? = some ':' then
        (f path).take 2 = path.take 2 ∧
          ((f path)[2]?.any (Platform.isFileSeparator .windows) ↔
            path[2]?.any (Platform.isFileSeparator .windows))
      else (f path)[1]? ≠ some ':' := by
  have hcolon_of_take : (f path).take 2 = path.take 2 → (f path)[1]? = path[1]? := by
    intro htake
    have hget := congrArg (fun s : Str => s[1]?) htake
    simpa using hget
  have htake_ne : ∀ s : Str, s[1]? = some ':' → s.take 2 ≠ [] := by
    intro s hs hnil
    have hget : (s.take 2)[1]? = some ':' := by simpa using hs
    rw [hnil] at hget
    cases hget
  rw [KeepsRoot, rootName_windows, rootName_windows, isAbsolute_windows, isAbsolute_windows]
  by_cases hpath : path[1]? = some ':' <;> by_cases hf : (f path)[1]? = some ':'
  · rw [if_pos hpath, if_pos hpath, if_pos hf, beq_iff_eq.mpr hpath, beq_iff_eq.mpr hf,
      Bool.true_and, Bool.true_and, ← Bool.eq_iff_iff]
  · simp only [if_pos hpath, if_neg hf]
    exact iff_of_false (fun h => htake_ne path hpath h.1.symm)
      (fun h => hf ((hcolon_of_take h.1).trans hpath))
  · simp only [if_neg hpath, if_pos hf]
    exact iff_of_false (fun h => htake_ne _ hf h.1) (fun h => h hf)
  · rw [if_neg hpath, if_neg hpath, if_neg hf, beq_eq_false_iff_ne.mpr hpath,
      beq_eq_false_iff_ne.mpr hf]
    exact iff_of_true ⟨rfl, rfl⟩ hf

/-- The normal form goes on with a slash behind its leftmost component, unless
that is all and no bare drive. -/
theorem normal_windows_eq_leftmost_append (h : leftmost path ≠ []) :
    ∃ tail, normal .windows path = leftmost path ++ tail ∧
      (tail.head? = some '/' ∨
        (tail = [] ∧ ¬ ((leftmost path).length = 2 ∧ (leftmost path)[1]? = some ':'))) := by
  have hne : path ≠ [] := by
    rintro rfl
    exact h rfl
  rw [normal_windows hne]
  cases hparts : parts (placeOn .windows path) with
  | nil =>
      have hleft : leftmost path = leading .windows path := by simp [leftmost, hparts]
      rw [hleft] at h ⊢
      refine ⟨[], by simp [h], .inr ⟨rfl, ?_⟩⟩
      rw [leading]
      split <;> decide
  | cons f rest =>
      have hleft : leftmost path = leading .windows path ++ f := by simp [leftmost, hparts]
      obtain ⟨t, hjoin, ht⟩ : ∃ t, ['/'].intercalate (f :: rest) = f ++ t ∧
          (t.head? = some '/' ∨ t = []) := by
        cases rest with
        | nil => exact ⟨[], by simp [List.intercalate], .inr rfl⟩
        | cons next rest =>
            exact ⟨'/' :: ['/'].intercalate (next :: rest), by simp [List.intercalate], .inl rfl⟩
      rw [if_neg (List.cons_ne_nil _ _), hjoin, ← List.append_assoc, ← hleft, closeDrive]
      split
      · refine ⟨t ++ ['/'], List.append_assoc _ _ _, .inl ?_⟩
        rcases ht with hslash | rfl
        · rw [List.head?_append, hslash]
          rfl
        · rfl
      · rename_i hopen
        refine ⟨t, rfl, ht.imp_right (fun hnil => ⟨hnil, ?_⟩)⟩
        rwa [hnil, List.append_nil] at hopen

theorem backslash_not_mem_asPosix (path : Str) : '\\' ∉ asPosix .windows path := by
  induction path with
  | nil => exact List.not_mem_nil
  | cons c path ih =>
      rw [asPosix_windows_cons, List.mem_cons, not_or]
      refine ⟨?_, ih⟩
      split
      · decide
      · rename_i hc
        exact Ne.symm hc

theorem eq_of_moveOf_eq_down {s : Str} {n : Name} (h : moveOf s = .down n) : s = n.1 := by
  rw [moveOf] at h
  split at h
  · cases h
    rfl
  · split at h <;> cases h

/-- Components of converted text hold neither separator. -/
theorem not_isFileSeparator_of_mem_parts {s : Str} (h : s ∈ parts (placeOn .windows path))
    {c : Char} (hc : c ∈ s) : Platform.windows.isFileSeparator c = false := by
  have hslash : c ≠ '/' := fun heq => (of_mem_parts h).2.2 (heq ▸ hc)
  have hback : c ≠ '\\' := by
    rintro rfl
    rw [parts_eq, List.mem_append, List.mem_replicate, List.mem_map] at h
    rcases h with ⟨_, rfl⟩ | ⟨n, hn, rfl⟩
    · exact absurd hc (by decide)
    · have hmove := (Place.mem_names_walk hn).resolve_left List.not_mem_nil
      obtain ⟨piece, hpiece, hdown⟩ := List.mem_map.mp hmove
      rw [← eq_of_moveOf_eq_down hdown] at hc
      exact backslash_not_mem_asPosix path (Scan.mem_of_mem_components hpiece hc)
  rw [Platform.isFileSeparator, beq_eq_false_iff_ne.mpr hslash]
  exact beq_eq_false_iff_ne.mpr hback

theorem leftmost_third (h : 2 < (leftmost path).length) :
    (leftmost path)[2]?.any (Platform.isFileSeparator .windows) = false := by
  have hlead : (leading .windows path).length ≤ 1 := by
    rw [leading]
    split <;> decide
  rw [leftmost] at h ⊢
  cases hparts : parts (placeOn .windows path) with
  | nil =>
      rw [hparts, List.head?_nil, Option.getD_none, List.append_nil] at h
      omega
  | cons f rest =>
      rw [List.head?_cons, Option.getD_some, List.getElem?_append_right (by omega)]
      cases hget : f[2 - (leading .windows path).length]? with
      | none => rfl
      | some c =>
          exact not_isFileSeparator_of_mem_parts (hparts ▸ List.mem_cons_self)
            (List.mem_of_getElem? hget)

/-- The drive of a normal form is that of its leftmost component, and nothing but
that drive makes it absolute. -/
theorem drive_normal_windows (path : Str) :
    ((normal .windows path)[1]? = some ':' ↔ (leftmost path)[1]? = some ':') ∧
      ((leftmost path)[1]? = some ':' →
        (normal .windows path).take 2 = (leftmost path).take 2 ∧
          ((normal .windows path)[2]?.any (Platform.isFileSeparator .windows) ↔
            (leftmost path).length = 2)) := by
  by_cases hleft : leftmost path = []
  · have hdot : normal .windows path = dot := by
      by_cases hne : path = []
      · rw [hne]
        rfl
      · obtain ⟨hlead, hhead⟩ := List.append_eq_nil_iff.mp hleft
        have hparts : parts (placeOn .windows path) = [] := by
          cases hparts : parts (placeOn .windows path) with
          | nil => rfl
          | cons f rest =>
              rw [hparts] at hhead
              exact absurd hhead (parts_ok (placeOn .windows path) f (by simp [hparts])).1
        rw [normal_windows hne, if_pos hparts, if_pos hlead]
    rw [hdot, hleft]
    decide
  obtain ⟨tail, heq, htail⟩ := normal_windows_eq_leftmost_append hleft
  have hpos := List.length_pos_iff.mpr hleft
  rw [heq]
  by_cases hlen : 1 < (leftmost path).length
  · rw [List.getElem?_append_left hlen, List.take_append_of_le_length hlen]
    refine ⟨Iff.rfl, fun hcolon => ⟨rfl, ?_⟩⟩
    by_cases htwo : (leftmost path).length = 2
    · have hslash : tail.head? = some '/' :=
        htail.resolve_right (fun hopen => hopen.2 ⟨htwo, hcolon⟩)
      rw [List.getElem?_append_right (by omega), htwo, ← List.head?_eq_getElem?, hslash]
      exact iff_of_true rfl rfl
    · rw [List.getElem?_append_left (by omega), leftmost_third (by omega)]
      exact iff_of_false Bool.false_ne_true htwo
  · have hnone : (leftmost path)[1]? = none := List.getElem?_eq_none (by omega)
    have htail' : tail.head? ≠ some ':' := by
      rcases htail with hslash | ⟨rfl, _⟩
      · rw [hslash]
        decide
      · decide
    rw [List.getElem?_append_right (by omega), show 1 - (leftmost path).length = 0 by omega,
      ← List.head?_eq_getElem?, hnone]
    exact ⟨iff_of_false htail' (by decide), fun h => absurd h (by decide)⟩

theorem keepsRoot_normal_iff (path : Str) :
    KeepsRoot (normal .windows) path ↔
      if path[1]? = some ':' then
        (leftmost path).take 2 = path.take 2 ∧
          ((leftmost path).length = 2 ↔ path[2]?.any (Platform.isFileSeparator .windows))
      else (leftmost path)[1]? ≠ some ':' := by
  obtain ⟨hcolon, hdrive⟩ := drive_normal_windows path
  have hsecond : ∀ {s t : Str}, s.take 2 = t.take 2 → t[1]? = some ':' → s[1]? = some ':' := by
    intro s t htake ht
    have hget := congrArg (fun s : Str => s[1]?) htake
    simp only [List.getElem?_take_of_lt Nat.one_lt_two] at hget
    exact hget.trans ht
  rw [keepsRoot_iff]
  split
  · rename_i hpath
    constructor
    · rintro ⟨htake, hthird⟩
      obtain ⟨htake', hthird'⟩ := hdrive (hcolon.mp (hsecond htake hpath))
      exact ⟨htake'.symm.trans htake, hthird'.symm.trans hthird⟩
    · rintro ⟨htake, hlen⟩
      obtain ⟨htake', hthird'⟩ := hdrive (hsecond htake hpath)
      exact ⟨htake'.trans htake, hthird'.trans hlen⟩
  · exact hcolon.not

end Drives

section DropSlash

/-- A bare drive is closed, any other path loses the separators at its end. -/
theorem dropTrailingSlashOn_drive (x : Char) (rest : Str) :
    dropTrailingSlashOn .windows (x :: ':' :: rest) =
      x :: ':' :: (if rest.rdropWhile (Platform.isFileSeparator .windows) = [] then ['/']
        else rest.rdropWhile (Platform.isFileSeparator .windows)) := by
  rw [dropTrailingSlashOn.eq_def]
  dsimp only
  rw [Ends.rdropWhile_cons_of_not (by decide), rootName_windows]
  by_cases hnil : rest.rdropWhile (Platform.isFileSeparator .windows) = []
  · rw [if_pos hnil, hnil]
    exact if_pos ⟨rfl, List.cons_ne_nil _ _, by simp⟩
  · rw [if_neg hnil]
    refine if_neg (fun h => hnil ?_)
    simpa using h.2.2

theorem destutter_drive (x : Char) (t : Str) :
    (x :: ':' :: t).destutter (fun a b => ¬ (a = '/' ∧ b = '/')) =
      x :: ':' :: t.destutter (fun a b => ¬ (a = '/' ∧ b = '/')) := by
  rw [List.destutter_cons_cons, if_pos (by simp)]
  cases t with
  | nil => rfl
  | cons c t => rw [List.destutter'_cons_pos _ (by simp), List.destutter_cons']

theorem asPosix_windows_colon (path : Str) :
    asPosix .windows (':' :: path) = ':' :: asPosix .windows path := rfl

theorem isFileSeparator_asPosix_head (path : Str) :
    (asPosix .windows path).head?.any (Platform.isFileSeparator .windows) =
      path.head?.any (Platform.isFileSeparator .windows) := by
  cases path with
  | nil => rfl
  | cons c path =>
      rw [asPosix_windows_cons]
      by_cases hc : c = '\\'
      · rw [if_pos hc, hc]
        rfl
      · rw [if_neg hc]
        rfl

/-- What a drive is followed by at the end. -/
theorem head?_closed_rest (rest : Str) :
    ((if (asPosix .windows rest).rdropWhile (Platform.isFileSeparator .windows) = [] then ['/']
        else (asPosix .windows rest).rdropWhile (Platform.isFileSeparator .windows)).head?.any
          (Platform.isFileSeparator .windows) ↔
      rest.head?.any (Platform.isFileSeparator .windows)) ↔ rest ≠ [] := by
  rw [← isFileSeparator_asPosix_head rest]
  by_cases hrest : rest = []
  · rw [hrest]
    decide
  refine iff_of_true ?_ hrest
  have hne : asPosix .windows rest ≠ [] := by
    rw [← List.length_pos_iff, length_asPosix]
    exact List.length_pos_iff.mpr hrest
  by_cases hnil : (asPosix .windows rest).rdropWhile (Platform.isFileSeparator .windows) = []
  · rw [if_pos hnil]
    refine iff_of_true rfl ?_
    have hall := List.rdropWhile_eq_nil_iff.mp hnil
    rw [List.head?_eq_some_head hne]
    exact hall _ (List.head_mem hne)
  · rw [if_neg hnil, Ends.head?_rdropWhile hnil]

theorem dropSlash_windows {path : Str} (hne : path ≠ []) (h : ¬ TwoSeparators path) :
    dropSlash .windows path =
      (dropTrailingSlashOn .windows (asPosix .windows path)).destutter
        fun a b => ¬ (a = '/' ∧ b = '/') := by
  rw [dropSlash, if_neg (by simpa using hne)]
  refine if_neg (fun hback => h ⟨?_, ?_⟩)
  · rw [hback.2.1]
    rfl
  · rw [hback.2.2]
    rfl

theorem dropTrailingSlashOn_no_drive {c : Char} {rest : Str} (h : rest.head? ≠ some ':') :
    dropTrailingSlashOn .windows (c :: rest) =
      c :: rest.rdropWhile (Platform.isFileSeparator .windows) := by
  have hsecond : (c :: rest.rdropWhile (Platform.isFileSeparator .windows))[1]? ≠ some ':' := by
    rw [List.getElem?_cons_succ, ← List.head?_eq_getElem?]
    by_cases hnil : rest.rdropWhile (Platform.isFileSeparator .windows) = []
    · rw [hnil]
      decide
    · rwa [Ends.head?_rdropWhile hnil]
  rw [dropTrailingSlashOn.eq_def]
  dsimp only
  rw [rootName_windows, if_neg hsecond]
  exact if_neg (fun hroot => List.cons_ne_nil _ _ hroot.2.2)

/-- Without a drive, no colon gets into the second place. -/
theorem dropSlash_second {path : Str} (h : ¬ TwoSeparators path) (hcolon : path[1]? ≠ some ':') :
    (dropSlash .windows path)[1]? ≠ some ':' := by
  cases path with
  | nil => exact hcolon
  | cons x rest =>
      have hrest : (asPosix .windows rest).head? ≠ some ':' := by
        cases rest with
        | nil => exact fun h => nomatch h
        | cons y rest =>
            rw [asPosix_windows_cons, List.head?_cons]
            split
            · decide
            · simpa using hcolon
      rw [dropSlash_windows (List.cons_ne_nil _ _) h, asPosix_windows_cons,
        dropTrailingSlashOn_no_drive hrest]
      cases hkept : (asPosix .windows rest).rdropWhile (Platform.isFileSeparator .windows) with
      | nil =>
          rw [List.destutter_singleton]
          exact fun h => nomatch h
      | cons d kept =>
          have hd : (asPosix .windows rest).head? = some d := by
            have hne := List.cons_ne_nil d kept
            rw [← hkept] at hne
            rw [← Ends.head?_rdropWhile hne, hkept, List.head?_cons]
          have hpair : ¬ ((if x = '\\' then '/' else x) = '/' ∧ d = '/') := by
            rintro ⟨hx, rfl⟩
            have hsep := isFileSeparator_asPosix_head (x :: rest)
            rw [asPosix_windows_cons, hx] at hsep
            have hsep' := isFileSeparator_asPosix_head rest
            rw [hd, List.head?_eq_getElem?] at hsep'
            exact h ⟨hsep.symm, hsep'.symm⟩
          rw [List.destutter_cons_cons, if_pos hpair, List.getElem?_cons_succ,
            ← List.head?_eq_getElem?, Ends.head?_destutter', ← hd]
          exact hrest

theorem keepsRoot_dropSlash_iff {path : Str} (h : ¬ TwoSeparators path) :
    KeepsRoot (dropSlash .windows) path ↔
      ¬ (path[1]? = some ':' ∧ (path.head? = some '\\' ∨ path.length = 2)) := by
  rw [keepsRoot_iff]
  by_cases hcolon : path[1]? = some ':'
  · rw [if_pos hcolon]
    match path with
    | [] => cases hcolon
    | [_] => cases hcolon
    | x :: y :: rest =>
        have hy : y = ':' := by simpa using hcolon
        subst hy
        rw [dropSlash_windows (List.cons_ne_nil _ _) h, asPosix_windows_cons,
          asPosix_windows_colon, dropTrailingSlashOn_drive, destutter_drive,
          List.getElem?_cons_succ, List.getElem?_cons_succ, List.getElem?_cons_succ,
          List.getElem?_cons_succ, ← List.head?_eq_getElem?, ← List.head?_eq_getElem?,
          Ends.head?_destutter, head?_closed_rest]
        by_cases hx : x = '\\'
        · simp [hx]
        · simp [hx]
  · rw [if_neg hcolon]
    exact iff_of_true (dropSlash_second h hcolon) (fun hdrive => hcolon hdrive.1)

/-- When `normal` and `drop_slash` keep the root of a path. For `normal` the
leftmost component has to carry the path's drive, alone where a separator comes
after it; for `drop_slash` the drive is not all and has no backslash in it. -/
theorem keepsRoot_normal_dropSlash_iff {path : Str} (h : ¬ TwoSeparators path) :
    (KeepsRoot (normal .windows) path ↔
      if path[1]? = some ':' then
        (leftmost path).take 2 = path.take 2 ∧
          ((leftmost path).length = 2 ↔ path[2]?.any (Platform.isFileSeparator .windows))
      else (leftmost path)[1]? ≠ some ':') ∧
    (KeepsRoot (dropSlash .windows) path ↔
      ¬ (path[1]? = some ':' ∧ (path.head? = some '\\' ∨ path.length = 2))) :=
  ⟨keepsRoot_normal_iff path, keepsRoot_dropSlash_iff h⟩

theorem keepsRoot_of_drive_path :
    ¬ TwoSeparators "c:/a".toList ∧ KeepsRoot (normal .windows) "c:/a".toList ∧
      KeepsRoot (dropSlash .windows) "c:/a".toList :=
  ⟨by decide, (keepsRoot_normal_dropSlash_iff (by decide)).1.mpr (by decide),
    (keepsRoot_normal_dropSlash_iff (by decide)).2.mpr (by decide)⟩

/-- `".."` takes the drive back. -/
theorem not_keepsRoot_of_dotdot :
    ¬ ∀ path : Str, ¬ TwoSeparators path →
      KeepsRoot (normal .windows) path ∧ KeepsRoot (dropSlash .windows) path := by
  intro h
  have habs := (h "c:/..".toList (by decide)).1.2
  rw [normal_windows (by decide)] at habs
  exact absurd habs (by decide)

end DropSlash

end Ffilesystem
