import Ffilesystem.Library.Presumed
import Ffilesystem.Resolve

/-!
# Making a directory with its parents in the POSIX C backend

`mkdir` resolves the path, splits the result into components, and calls
`mkdir(2)` on each prefix of it. An error is tolerated when the name is there
already, as whatever it is, and also when access is denied at a component that
differs from the last one.

The prefixes are texts in a growing buffer. What the loop does to the tree
depends only on the moves that the system reads from them (`effective`).
-/

namespace Ffilesystem

open FileTree Lexical

/-- The loop over the components, for any `mkdir(2)` and any state it works on.
The flag is what the loop left in `ok` so far. -/
def mkdirLoop {σ : Type} (call : σ → Str → Except Errno σ) (last : Option Str) :
    List Str → Str → Bool → σ → Bool × σ
  | [], _, ok, s => (ok, s)
  | part :: rest, buf, _, s =>
      let buf := buf ++ part ++ ['/']
      match call s buf with
      | .ok s => mkdirLoop call last rest buf true s
      | .error e =>
          if e = .exist ∨ (e = .acces ∧ some part ≠ last) then
            mkdirLoop call last rest buf true s
          else (false, s)

/-- What the environment refuses, by the path that the system sees. -/
abbrev Refusals := Str → Option { e : Errno // e ≠ .exist }

/-- The loop with the calls of the system. -/
def mkdirParts (refuse : Refusals) :
    Option Str → List Str → Str → Bool → System → Bool × System :=
  mkdirLoop fun sys buf => sys.mkdirCall refuse buf

def mkdir (refuse : Refusals) (sys : System) (path : Str) : Bool × System :=
  if path.isEmpty then (false, sys)
  else
    let rp := resolve sys path false
    let parts := splitFilesep .posix rp
    let buf := if rp.head?.any (Platform.isFileSeparator .posix) then ['/'] else []
    mkdirParts refuse parts.getLast? parts buf false sys

section Buffer

/-- The buffer after the components `front`. -/
def dirBuf (front : List Str) : Str := '/' :: front.flatMap (· ++ ['/'])

/-- The moves that the system reads from a buffer: one for each component, up to
the first component with a null character in it. -/
def effective : List Str → List (Move FileName)
  | [] => []
  | part :: rest => if '\x00' ∈ part then trail (cStr part) else entryMove part :: effective rest

theorem dirBuf_concat (front : List Str) (part : Str) :
    dirBuf (front ++ [part]) = dirBuf front ++ part ++ ['/'] := by
  simp [dirBuf]

theorem trail_of_not_mem {s : Str} (hne : s ≠ []) (h : '/' ∉ s) : trail s = [entryMove s] := by
  rw [trail, Scan.components_of_not_mem hne h, List.map_singleton]

theorem length_trail_cStr_le {part : Str} (h : '/' ∉ part) : (trail (cStr part)).length ≤ 1 := by
  by_cases hnil : cStr part = []
  · rw [hnil, trail_nil]
    exact Nat.zero_le 1
  · rw [trail_of_not_mem hnil (fun hmem => h (List.takeWhile_subset _ hmem))]
    exact Nat.le_refl 1

theorem entryMove_of_isName {part : Str} (h : IsName part) (hnul : '\x00' ∉ part) :
    ∃ name, entryMove part = .down name := ⟨⟨part, h, hnul⟩, dif_pos ⟨h, hnul⟩⟩

theorem trail_cStr_flatMap {front : List Str} (h : ∀ t ∈ front, IsName t) :
    trail (cStr (front.flatMap (· ++ ['/']))) = effective front := by
  induction front with
  | nil => exact trail_nil
  | cons part rest ih =>
      have hpart := h part List.mem_cons_self
      rw [List.flatMap_cons, effective, List.append_assoc]
      split
      · rename_i hnul
        rw [cStr_append_of_mem hnul]
      · rename_i hnul
        rw [cStr_append_of_not_mem hnul, List.singleton_append, cStr_cons_of_ne (by decide),
          trail_append_slash, trail_of_not_mem hpart.1 hpart.2.2.2,
          ih (fun t ht => h t (List.mem_cons_of_mem _ ht))]
        rfl

theorem trail_cStr_dirBuf {front : List Str} (h : ∀ t ∈ front, IsName t) :
    trail (cStr (dirBuf front)) = effective front := by
  rw [dirBuf, cStr_cons_of_ne (by decide), trail_cons_slash, trail_cStr_flatMap h]

theorem cStr_dirBuf_eq_cons (front : List Str) :
    cStr (dirBuf front) = '/' :: cStr (front.flatMap (· ++ ['/'])) :=
  cStr_cons_of_ne (by decide) _

/-- Each buffer reads as a first part of what the whole path reads as. -/
theorem effective_eq_take {front : List Str} (h : ∀ t ∈ front, IsName t) (rest : List Str) :
    effective front = (effective (front ++ rest)).take front.length := by
  induction front with
  | nil => rfl
  | cons part front ih =>
      rw [List.cons_append, effective, effective]
      split
      · have hlen := length_trail_cStr_le (h part List.mem_cons_self).2.2.2
        rw [List.take_of_length_le]
        exact Nat.le_trans hlen (Nat.succ_le_succ (Nat.zero_le _))
      · rw [List.length_cons, List.take_succ_cons,
          ← ih (fun t ht => h t (List.mem_cons_of_mem _ ht))]

theorem length_effective_le {texts : List Str} (h : ∀ t ∈ texts, IsName t) :
    (effective texts).length ≤ texts.length := by
  have htake := effective_eq_take h []
  rw [List.append_nil] at htake
  rw [htake, List.length_take]
  exact Nat.min_le_left _ _

theorem exists_down_of_effective {texts : List Str} (h : ∀ t ∈ texts, IsName t)
    {front behind : List (Move FileName)} {move : Move FileName}
    (heq : effective texts = front ++ move :: behind) (hbehind : behind ≠ []) :
    ∃ name, move = .down name := by
  induction texts generalizing front with
  | nil => simp [effective] at heq
  | cons part rest ih =>
      rw [effective] at heq
      split at heq
      · have hlen := length_trail_cStr_le (h part List.mem_cons_self).2.2.2
        have hpos := List.length_pos_iff.mpr hbehind
        rw [heq] at hlen
        simp only [List.length_append, List.length_cons] at hlen
        omega
      · rename_i hnul
        cases front with
        | nil =>
            obtain ⟨name, hname⟩ := entryMove_of_isName (h part List.mem_cons_self) hnul
            exact ⟨name, by rw [← hname, (List.cons.inj heq).1]⟩
        | cons first front =>
            exact ih (fun t ht => h t (List.mem_cons_of_mem _ ht)) (List.cons.inj heq).2

theorem isName_concat {texts front rest : List Str} {part : Str} (h : ∀ t ∈ texts, IsName t)
    (htexts : texts = front ++ part :: rest) : ∀ t ∈ front ++ [part], IsName t := by
  intro t ht
  apply h
  rw [htexts, List.append_cons]
  exact List.mem_append_left _ ht

/-- With one more component the system reads one more move, or no more at all. -/
theorem effective_step {texts front rest : List Str} {part : Str} (h : ∀ t ∈ texts, IsName t)
    (htexts : texts = front ++ part :: rest) :
    (effective texts = effective front ∧ (effective texts).drop front.length = []) ∨
      ∃ move behind, effective texts = effective front ++ move :: behind ∧
        effective (front ++ [part]) = effective front ++ [move] ∧
        (effective texts).drop front.length = move :: behind ∧
        (effective texts).drop (front ++ [part]).length = behind ∧
        (behind ≠ [] → ∃ name, move = .down name) := by
  have hfront : ∀ t ∈ front, IsName t := fun t ht => h t (htexts ▸ List.mem_append_left _ ht)
  have htake : effective front = (effective texts).take front.length :=
    htexts ▸ effective_eq_take hfront (part :: rest)
  cases hdrop : (effective texts).drop front.length with
  | nil =>
      rw [List.take_of_length_le (List.drop_eq_nil_iff.mp hdrop)] at htake
      exact .inl ⟨htake.symm, rfl⟩
  | cons move behind =>
      have hsplit : effective texts = effective front ++ move :: behind := by
        rw [htake, ← hdrop, List.take_append_drop]
      have hlen : (effective front).length = front.length := by
        have hpos := congrArg List.length hdrop
        simp only [List.length_drop, List.length_cons] at hpos
        rw [htake, List.length_take]
        omega
      have hnames : ∀ t ∈ front ++ [part], IsName t := isName_concat h htexts
      have hstep : effective (front ++ [part]) = (effective texts).take (front.length + 1) := by
        rw [effective_eq_take hnames rest, ← List.append_cons, ← htexts, List.length_append,
          List.length_singleton]
      refine .inr ⟨move, behind, hsplit, ?_, rfl, ?_, exists_down_of_effective h hsplit⟩
      · rw [hstep, hsplit, ← hlen, List.take_length_add_append]
        rfl
      · rw [List.length_append, List.length_singleton, ← List.drop_drop, hdrop]
        rfl

/-- A component that adds no move adds nothing that the system sees. -/
theorem cStr_dirBuf_concat {front : List Str} {part : Str} (h : ∀ t ∈ front ++ [part], IsName t)
    (hlen : (effective (front ++ [part])).length ≤ (effective front).length) :
    cStr (dirBuf (front ++ [part])) = cStr (dirBuf front) := by
  rw [dirBuf_concat, List.append_assoc]
  by_cases hnul : '\x00' ∈ dirBuf front
  · exact cStr_append_of_mem hnul _
  · rw [cStr_append_of_not_mem hnul, cStr_of_not_mem hnul]
    have hpart := h part (by simp)
    have hsplit :
        effective (front ++ [part]) = effective front ++ trail (cStr (part ++ ['/'])) := by
      rw [← trail_cStr_dirBuf h, dirBuf_concat, List.append_assoc, cStr_append_of_not_mem hnul,
        ← trail_cStr_dirBuf (fun t ht => h t (List.mem_append_left _ ht)), cStr_of_not_mem hnul]
      obtain ⟨text, htext⟩ : ∃ text, dirBuf front = text ++ ['/'] := by
        cases front using List.reverseRecOn with
        | nil => exact ⟨[], rfl⟩
        | append_singleton front last => exact ⟨_, dirBuf_concat front last⟩
      rw [htext, List.append_assoc, List.singleton_append, trail_append_slash, trail_append_slash,
        trail_nil, List.append_nil]
    rw [hsplit, List.length_append] at hlen
    have hnone : trail (cStr (part ++ ['/'])) = [] := List.length_eq_zero_iff.mp (by omega)
    by_cases hcut : '\x00' ∈ part
    · rw [cStr_append_of_mem hcut] at hnone ⊢
      have hnil : cStr part = [] := by
        by_contra hne
        rw [trail_of_not_mem hne (fun hmem => hpart.2.2.2 (List.takeWhile_subset _ hmem))] at hnone
        cases hnone
      rw [hnil, List.append_nil]
    · rw [cStr_append_of_not_mem hcut, cStr_cons_of_ne (by decide), trail_append_slash,
        trail_of_not_mem hpart.1 hpart.2.2.2] at hnone
      cases hnone

theorem length_effective_append_le {front : List Str} (h : ∀ t ∈ front, IsName t)
    (rest : List Str) : (effective front).length ≤ (effective (front ++ rest)).length := by
  rw [effective_eq_take h rest, List.length_take]
  exact Nat.min_le_right _ _

/-- Components that add no move add nothing that the system sees. -/
theorem cStr_dirBuf_append {front more : List Str} (h : ∀ t ∈ front ++ more, IsName t)
    (hlen : (effective (front ++ more)).length ≤ (effective front).length) :
    cStr (dirBuf (front ++ more)) = cStr (dirBuf front) := by
  induction more using List.reverseRecOn with
  | nil => rw [List.append_nil]
  | append_singleton more part ih =>
      rw [← List.append_assoc] at h hlen ⊢
      have hnames : ∀ t ∈ front ++ more, IsName t := fun t ht => h t (List.mem_append_left _ ht)
      have hmore := length_effective_append_le hnames [part]
      have hfront := length_effective_append_le
        (fun t ht => hnames t (List.mem_append_left _ ht)) more
      rw [cStr_dirBuf_concat h (Nat.le_trans hlen hfront), ih hnames (Nat.le_trans hmore hlen)]

end Buffer

section Calls

variable {sys : System} {refuse : Refusals} {front : List Str}

theorem locate_dirBuf (h : ∀ t ∈ front, IsName t) :
    sys.locate (dirBuf front) =
      match sys.tree.walk sys.maxLinks (.dir []) (effective front).dropLast with
      | .ok (_, .dir R) => .ok (R, (effective front).getLast?.getD .stay)
      | .ok (_, .file ..) => .error .notdir
      | .error stop => .error (stopErrno stop) := by
  have hcons := cStr_dirBuf_eq_cons front
  simp only [System.locate, trail_cStr_dirBuf h, System.walkFrom]
  rw [if_neg (by rw [hcons]; exact List.cons_ne_nil _ _), hcons]
  rfl

theorem mkdirCall_of_occupied (h : ∀ t ∈ front, IsName t)
    (hoccupied : sys.tree.Occupied sys.maxLinks (effective front)) :
    sys.mkdirCall refuse (dirBuf front) = .error .exist := by
  obtain ⟨left, R, hwalk, hlast⟩ := hoccupied
  rw [System.mkdirCall, locate_dirBuf h, hwalk]
  cases hget : (effective front).getLast? with
  | none => rfl
  | some move =>
      cases move with
      | stay => rfl
      | up => rfl
      | down name =>
          have hthere : ¬ (sys.tree.IsDir R ∧ sys.tree.lookup R name = none) :=
            fun hfree => hlast name hget hfree.2
          exact dif_neg hthere

/-- `mkdir(2)` on a name that its directory lacks. -/
theorem mkdirCall_of_free (refuse : Refusals) (h : ∀ t ∈ front, IsName t)
    {moves : List (Move FileName)} {name : FileName} {left : Nat} {R : List FileName}
    (hmoves : effective front = moves ++ [.down name])
    (hwalk : sys.tree.walk sys.maxLinks (.dir []) moves = .ok (left, .dir R))
    (hnone : sys.tree.lookup R name = none) :
    ∃ hdir : sys.tree.IsDir R, sys.mkdirCall refuse (dirBuf front) =
      match refuse (cStr (dirBuf front)) with
      | some e => .error e
      | none => .ok (sys.addEntry ⟨R, name, .dir⟩ hdir hnone) := by
  have hdir : sys.tree.IsDir R := Tree.walk_stands (s := .dir []) Tree.isDir_root hwalk
  refine ⟨hdir, ?_⟩
  rw [System.mkdirCall, locate_dirBuf h, hmoves, List.dropLast_concat, hwalk,
    List.getLast?_concat]
  exact dif_pos ⟨hdir, hnone⟩

/-- `mkdir(2)` where no directory can be reached to make the name in. -/
theorem mkdirCall_of_blocked (refuse : Refusals) (h : ∀ t ∈ front, IsName t)
    (hblocked : ∀ left R, sys.tree.walk sys.maxLinks (.dir []) (effective front).dropLast ≠
      .ok (left, .dir R)) :
    ∃ e, sys.mkdirCall refuse (dirBuf front) = .error e ∧ e ≠ .exist ∧ e ≠ .acces := by
  rw [System.mkdirCall, locate_dirBuf h]
  cases hwalk : sys.tree.walk sys.maxLinks (.dir []) (effective front).dropLast with
  | error stop =>
      refine ⟨stopErrno stop, rfl, ?_, ?_⟩
      · cases stop <;> exact fun heq => nomatch heq
      · cases stop <;> exact fun heq => nomatch heq
  | ok arrival =>
      obtain ⟨left, spot⟩ := arrival
      cases spot with
      | dir R => exact absurd hwalk (hblocked left R)
      | file R name ino => exact ⟨.notdir, rfl, by decide, by decide⟩

end Calls

section Loop

variable {sys : System} {refuse : Refusals} {last : Option Str}

theorem mkdirParts_ok {front rest : List Str} {part : Str} {ok : Bool} {sys' : System}
    (h : sys.mkdirCall refuse (dirBuf (front ++ [part])) = .ok sys') :
    mkdirParts refuse last (part :: rest) (dirBuf front) ok sys =
      mkdirParts refuse last rest (dirBuf (front ++ [part])) true sys' := by
  rw [mkdirParts, mkdirLoop, ← dirBuf_concat]
  simp only [h]

theorem mkdirParts_exist {front rest : List Str} {part : Str} {ok : Bool}
    (h : sys.mkdirCall refuse (dirBuf (front ++ [part])) = .error .exist) :
    mkdirParts refuse last (part :: rest) (dirBuf front) ok sys =
      mkdirParts refuse last rest (dirBuf (front ++ [part])) true sys := by
  rw [mkdirParts, mkdirLoop, ← dirBuf_concat]
  simp only [h]
  exact if_pos (.inl trivial)

theorem mkdirParts_error {front rest : List Str} {part : Str} {ok : Bool} {e : Errno}
    (h : sys.mkdirCall refuse (dirBuf (front ++ [part])) = .error e) (he : e ≠ .exist)
    (he' : e ≠ .acces) :
    mkdirParts refuse last (part :: rest) (dirBuf front) ok sys =
      (false, sys) := by
  rw [mkdirParts, mkdirLoop, ← dirBuf_concat]
  simp only [h]
  exact if_neg (fun htol => htol.elim he (fun h => he' h.1))

/-- A loop whose calls all fail, none because the name is there, fails: the last
component is not excused. -/
theorem mkdirParts_stuck {front rest : List Str} (hne : rest ≠ []) (hlast : last = rest.getLast?)
    (hcall : ∀ more, more ≠ [] → more <+: rest →
      ∃ e, sys.mkdirCall refuse (dirBuf (front ++ more)) = .error e ∧ e ≠ .exist) (ok : Bool) :
    (mkdirParts refuse last rest (dirBuf front) ok sys).1 =
      false := by
  induction rest generalizing front ok with
  | nil => exact absurd rfl hne
  | cons part rest ih =>
      obtain ⟨e, hfail, he⟩ := hcall [part] (by simp) ⟨rest, rfl⟩
      rw [mkdirParts, mkdirLoop, ← dirBuf_concat]
      simp only [hfail]
      split
      · rename_i htol
        obtain ⟨-, hpart⟩ := htol.resolve_left he
        cases rest with
        | nil => exact absurd hlast.symm hpart
        | cons next rest =>
            apply ih (List.cons_ne_nil _ _)
            · rw [hlast, List.getLast?_cons_cons]
            · intro more hmore hpre
              have hlater := hcall (part :: more) (List.cons_ne_nil _ _)
                (List.cons_prefix_cons.mpr ⟨rfl, hpre⟩)
              rwa [List.append_cons] at hlater
      · rfl

/-- Once the whole path is occupied, the rest of the loop changes nothing. -/
theorem mkdirParts_occupied {texts front rest : List Str} (h : ∀ t ∈ texts, IsName t)
    (htexts : texts = front ++ rest) (hlen : (effective texts).length ≤ front.length)
    (hoccupied : sys.tree.Occupied sys.maxLinks (effective texts)) (ok : Bool)
    (hrun : ok = true ∨ rest ≠ []) :
    mkdirParts refuse last rest (dirBuf front) ok sys = (true, sys) := by
  induction rest generalizing front ok with
  | nil =>
      rw [hrun.resolve_right (fun hne => hne rfl)]
      rfl
  | cons part rest ih =>
      have htexts' : texts = front ++ [part] ++ rest := htexts.trans (List.append_cons _ _ _)
      have hnames : ∀ t ∈ front ++ [part], IsName t := isName_concat h htexts
      have heff : effective (front ++ [part]) = effective texts := by
        rw [effective_eq_take hnames rest, ← htexts', List.take_of_length_le]
        rw [List.length_append]
        omega
      rw [mkdirParts_exist (mkdirCall_of_occupied hnames (heff ▸ hoccupied))]
      exact ih htexts' (by rw [List.length_append]; omega) true (.inl rfl)

theorem addDirs_down {R : List FileName} {name : FileName} (hdir : sys.tree.IsDir R)
    (hnone : sys.tree.lookup R name = none) (rest : List (Move FileName)) :
    sys.addDirs R (.down name :: rest) =
      (sys.addEntry ⟨R, name, .dir⟩ hdir hnone).addDirs (R ++ [name]) rest := by
  rw [System.addDirs, dif_pos ⟨hdir, hnone⟩]

/-- A move that does not go down makes nothing. -/
theorem addDirs_not_down {move : Move FileName} (h : ¬ ∃ name, move = .down name)
    (R : List FileName) : sys.addDirs R [move] = sys := by
  cases move with
  | down name => exact absurd ⟨name, rfl⟩ h
  | stay => rfl
  | up => rfl

/-- A directory that was just made has no entries. -/
theorem lookup_addEntry_fresh {R : List FileName} {name : FileName} (hdir : sys.tree.IsDir R)
    (hnone : sys.tree.lookup R name = none) (other : FileName) :
    (sys.addEntry ⟨R, name, .dir⟩ hdir hnone).tree.lookup (R ++ [name]) other = none := by
  have hnew : ¬ sys.tree.IsDir (R ++ [name]) := by
    intro hisDir
    rw [hisDir.exists_lookup.2] at hnone
    cases hnone
  rw [System.addEntry, Tree.lookup_add (e := ⟨R, name, .dir⟩) hdir hnone, if_neg]
  · exact Tree.lookup_eq_none_of_not_isDir hnew other
  · rintro ⟨hself, -⟩
    exact absurd (congrArg List.length hself) (by simp)

/-- A directory that was just made is reached by its name. -/
theorem walk_addEntry_fresh {R : List FileName} {name : FileName} (hdir : sys.tree.IsDir R)
    (hnone : sys.tree.lookup R name = none) {moves : List (Move FileName)} {left : Nat}
    (hwalk : sys.tree.walk sys.maxLinks (.dir []) moves = .ok (left, .dir R)) :
    (sys.addEntry ⟨R, name, .dir⟩ hdir hnone).tree.walk sys.maxLinks (.dir [])
      (moves ++ [.down name]) = .ok (left, .dir (R ++ [name])) := by
  have hext := Tree.extends_add (e := ⟨R, name, .dir⟩) hdir hnone
  rw [System.addEntry, Tree.walk_append_of_ok (hext.walk hwalk),
    Tree.walk_down_of_dir (Tree.lookup_add_self (e := ⟨R, name, .dir⟩) hdir hnone) rfl,
    Tree.walk_nil]
  rfl

/-- Making directories adds entries and changes nothing else. -/
theorem grows_addDirs (sys : System) (R : List FileName) (moves : List (Move FileName)) :
    sys.Grows (sys.addDirs R moves) := by
  induction moves generalizing sys R with
  | nil => exact .refl sys
  | cons move rest ih =>
      cases move with
      | stay => exact .refl sys
      | up => exact .refl sys
      | down name =>
          rw [System.addDirs]
          split
          · rename_i hfree
            exact (System.grows_addEntry hfree.1 hfree.2).trans (ih _ _)
          · exact .refl sys

/-- Names that are lacking are walked through once they are made. -/
theorem walk_addDirs {front rest : List (Move FileName)} {left : Nat} {R : List FileName}
    (hdown : ∀ move ∈ rest, ∃ name, move = .down name)
    (hwalk : sys.tree.walk sys.maxLinks (.dir []) front = .ok (left, .dir R))
    (hfree : ∀ name, rest.head? = some (.down name) → sys.tree.lookup R name = none) :
    ∃ Q, (sys.addDirs R rest).tree.walk sys.maxLinks (.dir []) (front ++ rest) =
      .ok (left, .dir Q) := by
  induction rest generalizing sys front R left with
  | nil =>
      rw [List.append_nil]
      exact ⟨R, hwalk⟩
  | cons move rest ih =>
      obtain ⟨name, rfl⟩ := hdown move List.mem_cons_self
      have hdir : sys.tree.IsDir R := Tree.walk_stands (s := .dir []) Tree.isDir_root hwalk
      have hnone := hfree name rfl
      rw [addDirs_down hdir hnone, List.append_cons front]
      exact ih (fun move hmem => hdown move (List.mem_cons_of_mem _ hmem))
        (walk_addEntry_fresh hdir hnone hwalk) fun other _ => lookup_addEntry_fresh hdir hnone other

/-- The directories that are made for the moves are the names they go down to. -/
theorem adds_addDirs {R : List FileName} {moves : List (Move FileName)} (hdir : sys.tree.IsDir R)
    (hfree : ∀ name behind, Tree.downs moves = name :: behind → sys.tree.lookup R name = none) :
    Tree.Adds sys.tree (sys.addDirs R moves).tree R (Tree.downs moves) := by
  induction moves generalizing sys R with
  | nil => exact Tree.adds_nil hdir
  | cons move rest ih =>
      cases move with
      | stay => exact Tree.adds_nil hdir
      | up => exact Tree.adds_nil hdir
      | down name =>
          have hnone := hfree name (Tree.downs rest) rfl
          have hmade : (sys.addEntry ⟨R, name, .dir⟩ hdir hnone).tree.IsDir (R ++ [name]) :=
            Tree.isDir_path (T := sys.tree.add ⟨R, name, .dir⟩ hdir hnone)
              (e := ⟨R, name, .dir⟩) List.mem_cons_self rfl
          rw [addDirs_down hdir hnone]
          exact .cons hdir hnone (ih hmade fun other _ _ => lookup_addEntry_fresh hdir hnone other)

/-- Behind a name that was refused no call succeeds: it is refused again where
the system sees the same path, and has nowhere to make its name otherwise. -/
theorem mkdirCall_behind_refused {front : List Str} {moves : List (Move FileName)}
    {name : FileName} {left : Nat} {R : List FileName} {e : { e : Errno // e ≠ .exist }}
    (hmoves : effective front = moves ++ [.down name])
    (hwalk : sys.tree.walk sys.maxLinks (.dir []) moves = .ok (left, .dir R))
    (hnone : sys.tree.lookup R name = none)
    (hrefuse : refuse (cStr (dirBuf front)) = some e) (more : List Str)
    (h : ∀ t ∈ front ++ more, IsName t) :
    ∃ e, sys.mkdirCall refuse (dirBuf (front ++ more)) = .error e ∧ e ≠ .exist := by
  have hfront : ∀ t ∈ front, IsName t := fun t ht => h t (List.mem_append_left _ ht)
  have hlen : (effective front).length ≤ front.length := length_effective_le hfront
  cases Nat.lt_or_ge (effective front).length (effective (front ++ more)).length with
  | inl hlonger =>
      -- the refused name is one of the names to be passed
      have hpre : effective front <+: (effective (front ++ more)).dropLast := by
        refine List.prefix_of_prefix_length_le ?_ (List.dropLast_prefix _) ?_
        · rw [effective_eq_take hfront more]
          exact List.take_prefix _ _
        · rw [List.length_dropLast]
          omega
      obtain ⟨behind, hbehind⟩ := hpre
      have hblocked : ∀ left' R', sys.tree.walk sys.maxLinks (.dir [])
          (effective (front ++ more)).dropLast ≠ .ok (left', .dir R') := by
        intro left' R'
        rw [← hbehind, hmoves, List.append_assoc]
        exact Tree.not_walk_of_lookup_eq_none hwalk hnone _
      obtain ⟨e, hcall, he, -⟩ := mkdirCall_of_blocked refuse h hblocked
      exact ⟨e, hcall, he⟩
  | inr hshort =>
      have hsame : effective (front ++ more) = effective front := by
        rw [effective_eq_take hfront more, List.take_of_length_le (Nat.le_trans hshort hlen)]
      obtain ⟨hdir, hcall⟩ := mkdirCall_of_free refuse h (hsame.trans hmoves) hwalk hnone
      rw [cStr_dirBuf_append h hshort, hrefuse] at hcall
      exact ⟨e, hcall, e.2⟩

/-- What the loop does from a directory on in which the rest of the path is not
there: it makes the rest, or it fails because something was refused. -/
structure Makes (refuse : Refusals) (sys : System) (R : List FileName)
    (moves : List (Move FileName)) (r : Bool × System) : Prop where
  made : r.1 = true → r.2 = sys.addDirs R moves
  unrefused : (∀ p, refuse p = none) → r.1 = true

/-- Step lemma: a name that its directory lacks is made, or refused for good. -/
theorem mkdirParts_free (refuse : Refusals) {texts front rest : List Str} {part : Str}
    (h : ∀ t ∈ texts, IsName t)
    (htexts : texts = front ++ part :: rest) (hlast : last = (part :: rest).getLast?)
    {left : Nat} {R : List FileName} {name : FileName} {behind : List (Move FileName)}
    (hwalk : sys.tree.walk sys.maxLinks (.dir []) (effective front) = .ok (left, .dir R))
    (hnone : sys.tree.lookup R name = none)
    (hstep : effective (front ++ [part]) = effective front ++ [.down name])
    (hrest : ∀ sys' : System,
      sys'.tree.walk sys'.maxLinks (.dir []) (effective (front ++ [part])) =
        .ok (left, .dir (R ++ [name])) →
      (∀ other, sys'.tree.lookup (R ++ [name]) other = none) →
      Makes refuse sys' (R ++ [name]) behind
        (mkdirParts refuse last rest (dirBuf (front ++ [part])) true sys')) (ok : Bool) :
    Makes refuse sys R (.down name :: behind)
      (mkdirParts refuse last (part :: rest) (dirBuf front) ok sys) := by
  have hnames : ∀ t ∈ front ++ [part], IsName t := isName_concat h htexts
  obtain ⟨hdir, hcall⟩ := mkdirCall_of_free refuse hnames hstep hwalk hnone
  cases hrefuse : refuse (cStr (dirBuf (front ++ [part]))) with
  | some e =>
      have hstuck : (mkdirParts refuse last (part :: rest) (dirBuf front) ok sys).1 = false := by
        apply mkdirParts_stuck (List.cons_ne_nil _ _) hlast
        intro more hmore hpre
        obtain ⟨first, more, rfl⟩ := List.exists_cons_of_ne_nil hmore
        obtain ⟨rfl, behind', rfl⟩ := List.cons_prefix_cons.mp hpre
        rw [List.append_cons]
        apply mkdirCall_behind_refused hstep hwalk hnone hrefuse
        intro t ht
        refine h t ?_
        rw [htexts, List.append_cons, ← List.append_assoc]
        exact List.mem_append_left _ ht
      refine ⟨fun hok => ?_, fun hnever => ?_⟩
      · rw [hstuck] at hok
        cases hok
      · rw [hnever] at hrefuse
        cases hrefuse
  | none =>
      rw [hrefuse] at hcall
      have hwalk' := walk_addEntry_fresh hdir hnone hwalk
      have hempty' := lookup_addEntry_fresh hdir hnone
      rw [← hstep] at hwalk'
      obtain ⟨hmade, hunrefused⟩ := hrest _ hwalk' hempty'
      rw [mkdirParts_ok hcall]
      refine ⟨fun hok => ?_, hunrefused⟩
      rw [addDirs_down hdir hnone, hmade hok]

theorem getLast?_rest {rest : List Str} {part : Str} (hlast : last = (part :: rest).getLast?)
    (hne : rest ≠ []) : last = rest.getLast? := by
  obtain ⟨next, rest, rfl⟩ := List.exists_cons_of_ne_nil hne
  rw [hlast, List.getLast?_cons_cons]

/-- Run lemma for a directory that was just made: the loop makes the rest in it. -/
theorem mkdirParts_fresh {texts front rest : List Str} (h : ∀ t ∈ texts, IsName t)
    (htexts : texts = front ++ rest) (hlast : rest ≠ [] → last = rest.getLast?)
    {left : Nat} {R : List FileName}
    (hwalk : sys.tree.walk sys.maxLinks (.dir []) (effective front) = .ok (left, .dir R))
    (hempty : ∀ name, sys.tree.lookup R name = none) :
    Makes refuse sys R ((effective texts).drop front.length)
      (mkdirParts refuse last rest (dirBuf front) true sys) := by
  induction rest generalizing front sys R left with
  | nil =>
      have hlen := length_effective_le h
      rw [htexts, List.append_nil] at hlen
      rw [htexts, List.append_nil, List.drop_of_length_le hlen]
      exact ⟨fun _ => rfl, fun _ => rfl⟩
  | cons part rest ih =>
      have htexts' : texts = front ++ [part] ++ rest := htexts.trans (List.append_cons _ _ _)
      have hlast' := hlast (List.cons_ne_nil _ _)
      cases effective_step h htexts with
      | inl hend =>
          obtain ⟨heff, hdrop⟩ := hend
          rw [hdrop, mkdirParts_occupied h htexts (List.drop_eq_nil_iff.mp hdrop)
            (Tree.occupied_of_walk (heff ▸ hwalk)) true (.inl rfl)]
          exact ⟨fun _ => rfl, fun _ => rfl⟩
      | inr hnext =>
          obtain ⟨move, behind, hsplit, hstep, hdrop, hdrop', hdown⟩ := hnext
          rw [hdrop]
          by_cases hname : ∃ name, move = .down name
          · obtain ⟨name, rfl⟩ := hname
            apply mkdirParts_free refuse h htexts hlast' hwalk (hempty name) hstep
            intro sys' hwalk' hempty'
            rw [← hdrop']
            exact ih htexts' (getLast?_rest hlast') hwalk' hempty'
          · -- only a cut component at the end of the path can be something else than a name
            obtain rfl : behind = [] := Decidable.byContradiction fun hne => hname (hdown hne)
            have hnames : ∀ t ∈ front ++ [part], IsName t := isName_concat h htexts
            have hoccupied : sys.tree.Occupied sys.maxLinks (effective front ++ [move]) :=
              Tree.occupied_concat hwalk fun name heq => absurd ⟨name, heq⟩ hname
            rw [mkdirParts_exist (mkdirCall_of_occupied hnames (hstep ▸ hoccupied)),
              mkdirParts_occupied h htexts' (List.drop_eq_nil_iff.mp hdrop')
                (hsplit ▸ hoccupied) true (.inl rfl)]
            exact ⟨fun _ => (addDirs_not_down hname R).symm, fun _ => rfl⟩

/-- What the loop does altogether: it succeeds on an occupied path and changes
nothing, it makes what is lacking, and it fails otherwise. -/
structure MakesPath (refuse : Refusals) (sys : System) (moves : List (Move FileName))
    (r : Bool × System) : Prop where
  sound : r.1 = true → (sys.tree.Occupied sys.maxLinks moves ∧ r.2 = sys) ∨
    ∃ R rest, sys.tree.Lacks sys.maxLinks moves R rest ∧ r.2 = sys.addDirs R rest
  occupied : sys.tree.Occupied sys.maxLinks moves → r = (true, sys)
  lacking : (∀ p, refuse p = none) →
    ∀ R rest, sys.tree.Lacks sys.maxLinks moves R rest → r.1 = true

theorem makesPath_of_occupied {moves : List (Move FileName)}
    (h : sys.tree.Occupied sys.maxLinks moves) : MakesPath refuse sys moves (true, sys) where
  sound _ := .inl ⟨h, rfl⟩
  occupied _ := rfl
  lacking _ _ _ hlacks := absurd hlacks h.not_lacks

/-- Behind something that is not a directory nothing is there, and nothing can be
made: the loop ends at it or fails. -/
theorem mkdirParts_notDir {texts front rest : List Str} (h : ∀ t ∈ texts, IsName t)
    (htexts : texts = front ++ rest)
    (hoccupied : sys.tree.Occupied sys.maxLinks (effective front))
    (hnotDir : ∀ left R, sys.tree.walk sys.maxLinks (.dir []) (effective front) ≠
      .ok (left, .dir R)) :
    MakesPath refuse sys (effective texts)
      (mkdirParts refuse last rest (dirBuf front) true sys) := by
  cases rest with
  | nil =>
      rw [List.append_nil] at htexts
      rw [htexts]
      exact makesPath_of_occupied hoccupied
  | cons next rest =>
      cases effective_step h htexts with
      | inl hend =>
          obtain ⟨heff, hdrop⟩ := hend
          rw [← heff] at hoccupied
          rw [mkdirParts_occupied h htexts (List.drop_eq_nil_iff.mp hdrop) hoccupied true
            (.inl rfl)]
          exact makesPath_of_occupied hoccupied
      | inr hnext =>
          obtain ⟨move, behind, hsplit, hstep, -, -, -⟩ := hnext
          have hnames : ∀ t ∈ front ++ [next], IsName t := isName_concat h htexts
          obtain ⟨e, hcall, he, he'⟩ := mkdirCall_of_blocked refuse hnames (by
            rw [hstep, List.dropLast_concat]
            exact hnotDir)
          rw [mkdirParts_error hcall he he', hsplit]
          refine ⟨fun hok => (nomatch hok), fun hthere => ?_, fun _ R rest' hlacks => ?_⟩
          · obtain ⟨left, R, hwalk, -⟩ := hthere
            rw [List.dropLast_append_of_ne_nil (List.cons_ne_nil _ _)] at hwalk
            obtain ⟨left', R', hfront, -⟩ := Tree.exists_walk_dir_of_append hwalk
            exact absurd hfront (hnotDir left' R')
          · cases hlacks.of_append with
            | inl hfront =>
                obtain ⟨rest'', hlacks'⟩ := hfront
                exact absurd hlacks' hoccupied.not_lacks
            | inr hfront =>
                obtain ⟨left', R', hfront⟩ := hfront
                exact absurd hfront (hnotDir left' R')

/-- Run lemma for a directory that is there: the loop goes on through what is
there, until something is lacking or the way is blocked. -/
theorem mkdirParts_reached {texts front rest : List Str} (h : ∀ t ∈ texts, IsName t)
    (htexts : texts = front ++ rest) (hlast : rest ≠ [] → last = rest.getLast?)
    {left : Nat} {R : List FileName}
    (hwalk : sys.tree.walk sys.maxLinks (.dir []) (effective front) = .ok (left, .dir R))
    (ok : Bool) (hrun : ok = true ∨ rest ≠ []) :
    MakesPath refuse sys (effective texts)
      (mkdirParts refuse last rest (dirBuf front) ok sys) := by
  induction rest generalizing front R left ok with
  | nil =>
      rw [List.append_nil] at htexts
      rw [hrun.resolve_right (fun hne => hne rfl), htexts]
      exact makesPath_of_occupied (Tree.occupied_of_walk hwalk)
  | cons part rest ih =>
      have htexts' : texts = front ++ [part] ++ rest := htexts.trans (List.append_cons _ _ _)
      have hnames : ∀ t ∈ front ++ [part], IsName t := isName_concat h htexts
      have hlast' := hlast (List.cons_ne_nil _ _)
      cases effective_step h htexts with
      | inl hend =>
          obtain ⟨heff, hdrop⟩ := hend
          have hoccupied := Tree.occupied_of_walk (heff ▸ hwalk)
          rw [mkdirParts_occupied h htexts (List.drop_eq_nil_iff.mp hdrop) hoccupied ok hrun]
          exact makesPath_of_occupied hoccupied
      | inr hnext =>
          obtain ⟨move, behind, hsplit, hstep, hdrop, hdrop', -⟩ := hnext
          by_cases hfree : ∃ name, move = .down name ∧ sys.tree.lookup R name = none
          · obtain ⟨name, rfl, hnone⟩ := hfree
            have hlacks : sys.tree.Lacks sys.maxLinks (effective texts) R (.down name :: behind) :=
              ⟨effective front, name, behind, left, hsplit, rfl, hwalk, hnone⟩
            obtain ⟨hmade, hunrefused⟩ := mkdirParts_free refuse h htexts hlast' hwalk
              hnone hstep (fun sys' hwalk' hempty' => hdrop' ▸
                mkdirParts_fresh h htexts' (getLast?_rest hlast') hwalk' hempty') ok
            exact ⟨fun hok => .inr ⟨R, _, hlacks, hmade hok⟩,
              fun hoccupied => absurd hlacks hoccupied.not_lacks,
              fun hnever _ _ _ => hunrefused hnever⟩
          · have hoccupied : sys.tree.Occupied sys.maxLinks (effective front ++ [move]) :=
              Tree.occupied_concat hwalk fun name heq hnone => hfree ⟨name, heq, hnone⟩
            rw [← hstep] at hoccupied
            rw [mkdirParts_exist (mkdirCall_of_occupied hnames hoccupied)]
            by_cases hdir : ∃ left' R', sys.tree.walk sys.maxLinks (.dir [])
                (effective (front ++ [part])) = .ok (left', .dir R')
            · obtain ⟨left', R', hwalk'⟩ := hdir
              exact ih htexts' (getLast?_rest hlast') hwalk' true (.inl rfl)
            · apply mkdirParts_notDir h htexts' hoccupied
              exact fun left' R' hwalk' => hdir ⟨left', R', hwalk'⟩

end Loop

section Contract

variable {sys : System} {path : Str} {refuse : Refusals}

/-- The moves of the resolved path, as the system reads its components. -/
def resolvedMoves (sys : System) (path : Str) : List (Move FileName) :=
  effective (splitFilesep .posix (resolve sys path false))

/-- In every environment a successful `mkdir` leaves a directory at the path. -/
def MakesDirectory (sys : System) (path : Str) : Prop :=
  ∀ refuse, (mkdir refuse sys path).1 = true → (mkdir refuse sys path).2.isDirectory path = true

/-- The moves of the absolute path in normal form, as the system reads its components. -/
def normalMoves (sys : System) (path : Str) : List (Move FileName) :=
  effective (splitFilesep .posix (normal .posix (absolute sys path)))

/-- There is no component to make: the path names the root, or it names nothing and
nothing is left of it in the normal form. -/
def NothingToMake (sys : System) (path : Str) : Prop :=
  sys.stat (absolute sys path) = .ok (.dir []) ∨
    (∃ e, sys.stat (absolute sys path) = .error e) ∧ normal .posix (absolute sys path) = ['/']

/-- The path names nothing, nothing is there under its normal form, and where only names
are lacking for that, the path leads to a directory if these are taken for directories,
and no other missing names. -/
structure Vacant (sys : System) (path : Str) : Prop where
  missing : ∃ e, sys.stat (absolute sys path) = .error e
  free : ¬ sys.tree.Occupied sys.maxLinks (normalMoves sys path)
  leads : ∀ R rest, sys.tree.Lacks sys.maxLinks (normalMoves sys path) R rest →
    cStr path ≠ [] ∧ ∃ taken,
      sys.tree.Presumes sys.maxLinks (sys.origin (cStr path)) []
        (trail (cStr path) ++ endMove (cStr path)) taken ∧
      sys.tree.Within R (Tree.downs rest) taken

theorem effective_names (R : List FileName) : effective (R.map Subtype.val) = R.map .down := by
  induction R with
  | nil => rfl
  | cons name R ih =>
      rw [List.map_cons, effective, if_neg name.2.2, entryMove_name, ih]
      rfl

/-- `mkdir` is the loop over the components of the resolved path. -/
theorem mkdir_eq {texts : List Str} (hne : path ≠ []) (h : ∀ t ∈ texts, IsName t)
    (hresolve : resolve sys path false = '/' :: ['/'].intercalate texts) :
    mkdir refuse sys path = mkdirParts refuse texts.getLast? texts (dirBuf []) false sys := by
  rw [mkdir, if_neg (by simpa using hne), hresolve]
  simp only [splitFilesep_absolute h]
  rfl

theorem mkdir_of_resolve_root (hne : path ≠ []) (hroot : resolve sys path false = ['/']) :
    mkdir refuse sys path = (false, sys) :=
  mkdir_eq hne (fun t (h : t ∈ []) => nomatch h) hroot

/-- Where there is a component to make, `mkdir` makes what the resolved path lacks. -/
theorem mkdir_makesPath (refuse : Refusals) (hne : path ≠ [])
    (hroot : resolve sys path false ≠ ['/']) :
    MakesPath refuse sys (resolvedMoves sys path) (mkdir refuse sys path) := by
  obtain ⟨texts, htexts, hresolve, -⟩ := resolve_eq sys hne
  have hsome : texts ≠ [] := by
    rintro rfl
    exact hroot hresolve
  rw [mkdir_eq hne htexts hresolve, resolvedMoves, hresolve, splitFilesep_absolute htexts]
  exact mkdirParts_reached htexts (List.nil_append texts).symm (fun _ => rfl)
    (Tree.walk_nil _ _) false (.inr hsome)

/-- A path that names something resolves to moves that lead to it. -/
theorem occupied_of_stat_absolute {spot : Spot FileName} (hne : path ≠ [])
    (hstat : sys.stat (absolute sys path) = .ok spot) :
    sys.tree.Occupied sys.maxLinks (resolvedMoves sys path) := by
  obtain ⟨texts, htexts, hresolve, hcases⟩ := resolve_eq sys hne
  cases hcases with
  | inl hthere =>
      obtain ⟨spot', hstat', hpath⟩ := hthere
      rw [resolvedMoves, hresolve, splitFilesep_absolute htexts, hpath, effective_names]
      exact Tree.occupied_of_stands (System.stat_stands hstat')
  | inr hmissing =>
      obtain ⟨⟨e, herror⟩, -⟩ := hmissing
      rw [hstat] at herror
      cases herror

theorem isDirectory_eq_true_iff :
    sys.isDirectory path = true ↔ ∃ R, sys.stat path = .ok (.dir R) := by
  rw [System.isDirectory]
  constructor
  · intro h
    split at h
    · rename_i spot hstat
      cases spot with
      | dir R => exact ⟨R, hstat⟩
      | file R name ino => cases h
    · cases h
  · rintro ⟨R, hstat⟩
    rw [hstat]
    rfl

theorem resolve_ne_root_of_ok (hne : path ≠ []) (hok : (mkdir refuse sys path).1 = true) :
    resolve sys path false ≠ ['/'] := by
  intro hroot
  rw [mkdir_of_resolve_root hne hroot] at hok
  cases hok

theorem makesPath_of_ok (hne : path ≠ []) (hok : (mkdir refuse sys path).1 = true) :
    MakesPath refuse sys (resolvedMoves sys path) (mkdir refuse sys path) :=
  mkdir_makesPath refuse hne (resolve_ne_root_of_ok hne hok)

/-- A directory that is there already is left as it is. -/
theorem makesDirectory_of_isDirectory (hne : path ≠ []) (hdir : sys.isDirectory path = true) :
    MakesDirectory sys path := by
  intro refuse hok
  obtain ⟨R, hstat⟩ := isDirectory_eq_true_iff.mp hdir
  have hcstr := (System.stat_eq_ok hstat).1
  have hoccupied := occupied_of_stat_absolute hne ((stat_absolute hcstr).trans hstat)
  rwa [(makesPath_of_ok hne hok).occupied hoccupied]

/-- What a path needs so that directories which are made let it lead to one. -/
theorem isDirectory_addDirs_iff {moves rest : List (Move FileName)} {R : List FileName}
    (hlacks : sys.tree.Lacks sys.maxLinks moves R rest) :
    (sys.addDirs R rest).isDirectory path = true ↔
      cStr path ≠ [] ∧ ∃ taken,
        sys.tree.Presumes sys.maxLinks (sys.origin (cStr path)) []
          (trail (cStr path) ++ endMove (cStr path)) taken ∧
        sys.tree.Within R (Tree.downs rest) taken := by
  obtain ⟨front, name, behind, left, -, rfl, hwalk, hnone⟩ := hlacks
  have hdir : sys.tree.IsDir R := Tree.walk_stands (s := .dir []) Tree.isDir_root hwalk
  have hfree : ∀ first more, Tree.downs (.down name :: behind) = first :: more →
      sys.tree.lookup R first = none := by
    intro first more hnames
    obtain ⟨rfl, -⟩ := List.cons.inj hnames
    exact hnone
  have hadds := adds_addDirs hdir hfree
  have hgrows := grows_addDirs sys R (.down name :: behind)
  rw [isDirectory_eq_true_iff, ← hadds.walk_iff (System.origin_stands (cStr path))]
  constructor
  · rintro ⟨Q, hstat⟩
    obtain ⟨hne, left, hwalk⟩ := System.stat_eq_ok hstat
    rw [System.walkFrom, hgrows.origin_eq, hgrows.maxLinks_eq] at hwalk
    exact ⟨hne, left, Q, hwalk⟩
  · rintro ⟨hne, left, Q, hwalk⟩
    refine ⟨Q, System.stat_of_walkFrom left hne ?_⟩
    rw [System.walkFrom, hgrows.origin_eq, hgrows.maxLinks_eq]
    exact hwalk

theorem resolvedMoves_of_stat_error {e : Errno} (hne : path ≠ [])
    (hstat : sys.stat (absolute sys path) = .error e) :
    resolvedMoves sys path = normalMoves sys path := by
  rw [resolvedMoves, resolve_of_stat_error hne hstat, normalMoves]

/-- Only the root has no components. -/
theorem resolve_eq_root_iff {spot : Spot FileName} (hne : path ≠ [])
    (hstat : sys.stat (absolute sys path) = .ok spot) :
    resolve sys path false = ['/'] ↔ spot = .dir [] := by
  rw [resolve_of_stat hne hstat, absString_eq_root_iff]
  cases spot with
  | dir R => simp [Spot.path]
  | file R name ino => simp [Spot.path]

theorem resolve_eq_root_iff_nothingToMake (hne : path ≠ []) :
    resolve sys path false = ['/'] ↔ NothingToMake sys path := by
  rw [NothingToMake]
  cases hstat : sys.stat (absolute sys path) with
  | ok spot =>
      rw [resolve_eq_root_iff hne hstat]
      constructor
      · rintro rfl
        exact .inl rfl
      · rintro (hroot | ⟨⟨e, herror⟩, -⟩)
        · exact Except.ok.inj hroot
        · cases herror
  | error e =>
      rw [resolve_of_stat_error hne hstat]
      exact ⟨fun hroot => .inr ⟨⟨e, rfl⟩, hroot⟩, fun h => h.elim (fun h => nomatch h) And.right⟩

theorem makesDirectory_of_vacant (hne : path ≠ []) (hvacant : Vacant sys path) :
    MakesDirectory sys path := by
  intro refuse hok
  obtain ⟨e, hmissing⟩ := hvacant.missing
  have hspec := makesPath_of_ok hne hok
  rw [resolvedMoves_of_stat_error hne hmissing] at hspec
  obtain ⟨hoccupied, -⟩ | ⟨R, rest, hlacks, hsys⟩ := hspec.sound hok
  · exact absurd hoccupied hvacant.free
  · rw [hsys]
    exact (isDirectory_addDirs_iff hlacks).mpr (hvacant.leads R rest hlacks)

/-- What the promise demands where there is a component to make. An environment
that refuses nothing is enough to see it. -/
theorem isDirectory_or_vacant (hne : path ≠ []) (hroot : resolve sys path false ≠ ['/'])
    (hmakes : MakesDirectory sys path) : sys.isDirectory path = true ∨ Vacant sys path := by
  have hspec := mkdir_makesPath (fun _ => none) hne hroot
  have hdir := hmakes fun _ => none
  by_cases hoccupied : sys.tree.Occupied sys.maxLinks (resolvedMoves sys path)
  · rw [hspec.occupied hoccupied] at hdir
    exact .inl (hdir rfl)
  cases hstat : sys.stat (absolute sys path) with
  | ok spot => exact absurd (occupied_of_stat_absolute hne hstat) hoccupied
  | error e =>
      rw [resolvedMoves_of_stat_error hne hstat] at hspec hoccupied
      refine .inr ⟨⟨e, hstat⟩, hoccupied, ?_⟩
      intro R rest hlacks
      have hok := hspec.lacking (fun _ => rfl) R rest hlacks
      obtain ⟨hthere, -⟩ | ⟨R', rest', hlacks', hsys⟩ := hspec.sound hok
      · exact absurd hthere hoccupied
      · obtain ⟨rfl, rfl⟩ := hlacks.unique hlacks'
        rw [← isDirectory_addDirs_iff hlacks, ← hsys]
        exact hdir hok

/-- `mkdir` keeps its promise exactly where the path is a directory already, where
there is no component to make, and where nothing is in the way and what the path
misses is what its normal form lacks. -/
theorem mkdir_makesDirectory_iff (sys : System) (path : Str) (hne : path ≠ []) :
    MakesDirectory sys path ↔
      sys.isDirectory path = true ∨ NothingToMake sys path ∨ Vacant sys path := by
  rw [← resolve_eq_root_iff_nothingToMake hne]
  constructor
  · intro hmakes
    by_cases hroot : resolve sys path false = ['/']
    · exact .inr (.inl hroot)
    · exact (isDirectory_or_vacant hne hroot hmakes).imp_right .inr
  · rintro (hdir | hroot | hvacant)
    · exact makesDirectory_of_isDirectory hne hdir
    · intro refuse hok
      rw [mkdir_of_resolve_root hne hroot] at hok
      cases hok
    · exact makesDirectory_of_vacant hne hvacant

theorem mkdir_makesDirectory_iff_at :
    MakesDirectory twoFiles ['d'] ↔
      twoFiles.isDirectory ['d'] = true ∨ NothingToMake twoFiles ['d'] ∨ Vacant twoFiles ['d'] :=
  mkdir_makesDirectory_iff twoFiles ['d'] (by decide)

/-- Where the last name is a file, `mkdir` calls that a success. -/
theorem mkdir_accepts_file : ¬ MakesDirectory twoFiles ['b'] := by
  intro hmakes
  have hdir := hmakes (fun _ => none) (by decide +kernel)
  exact absurd hdir (by decide +kernel)

end Contract

end Ffilesystem
