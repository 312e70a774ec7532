import Ffilesystem.Normalize
import Mathlib.Data.List.Chain
import Mathlib.Logic.Relation

/-!
# The `<filesystem>` backend of `normal`

`std::filesystem::path::lexically_normal` is specified by rewriting: separator
runs are merged, dots removed, and then names are removed together with the
`".."` after them for as long as there is such a pair. Nothing fixes the order
of the removals, so `LexicallyNormal` is a relation between a path and any
string that some order of removals can end with.

Every rewrite keeps the place that the names walk to, and a token list without
a removable pair spells its place in canonical order. Hence the order does not
matter, and after `normal`'s own step each possible result is the string that
the C backend computes with its stack.
-/

namespace Ffilesystem

open Lexical

/-- A path as the rules of `lexically_normal` read it: filenames, and runs of
separators each counting as one. -/
inductive Token
  | sep
  | name (s : Str)
  deriving DecidableEq, Repr

namespace Token

/-- Split into tokens, merging separator runs. -/
def ofPath : Str → List Token
  | [] => []
  | c :: rest =>
      if c = '/' then
        match ofPath rest with
        | .sep :: ts => .sep :: ts
        | ts => .sep :: ts
      else
        match ofPath rest with
        | .name s :: ts => .name (c :: s) :: ts
        | ts => .name [c] :: ts

def text : List Token → Str
  | [] => []
  | .sep :: ts => '/' :: text ts
  | .name s :: ts => s ++ text ts

/-- Remove each filename `x` together with the separator after it. -/
def removeEach (x : Str) : List Token → List Token
  | [] => []
  | .sep :: ts => .sep :: removeEach x ts
  | .name s :: .sep :: ts =>
      if s = x then removeEach x ts else .name s :: .sep :: removeEach x ts
  | .name s :: ts => if s = x then removeEach x ts else .name s :: removeEach x ts

def dropSep : List Token → List Token
  | .sep :: ts => ts
  | ts => ts

/-- Remove one filename that is not `".."`, the separator and the `".."` after
it, and the separator that may follow. -/
inductive RemovePair : List Token → List Token → Prop
  | pair (a b : List Token) {s : Str} (hs : s ≠ dotdot) :
      RemovePair (a ++ .name s :: .sep :: .name dotdot :: b) (a ++ dropSep b)

/-- Under a root directory no `".."` stays. -/
def removeDotdotsAtRoot (ts : List Token) : List Token :=
  if ts.head? = some .sep then removeEach dotdot ts else ts

/-- A last filename `".."` keeps no separator after it. -/
def dropSepAfterDotdot (ts : List Token) : List Token :=
  if ts.getLast? = some .sep ∧ ts.dropLast.getLast? = some (.name dotdot) then ts.dropLast else ts

def dotIfEmpty (ts : List Token) : List Token := if ts = [] then [.name dot] else ts

/-- The filenames of a token list, in order. -/
def names (ts : List Token) : List Str :=
  ts.filterMap fun
    | .sep => none
    | .name s => some s

end Token

open Token

/-- `r` is a result that the rules of `lexically_normal` allow for `path`. -/
def LexicallyNormal (path r : Str) : Prop :=
  ∃ ts, Relation.ReflTransGen RemovePair (removeEach dot (ofPath path)) ts ∧
    (∀ ts', ¬ RemovePair ts ts') ∧
    r = text (dotIfEmpty (dropSepAfterDotdot (removeDotdotsAtRoot ts)))

namespace Token

@[simp] theorem names_nil : names [] = [] := rfl
@[simp] theorem names_sep (ts : List Token) : names (.sep :: ts) = names ts := rfl
@[simp] theorem names_name (s : Str) (ts : List Token) :
    names (.name s :: ts) = s :: names ts := rfl
@[simp] theorem names_append (a b : List Token) : names (a ++ b) = names a ++ names b :=
  List.filterMap_append

@[simp] theorem names_dropSep (ts : List Token) : names (dropSep ts) = names ts := by
  match ts with
  | [] => rfl
  | .sep :: ts => rfl
  | .name s :: ts => rfl

/-- Separators and filenames take turns. -/
def Alternating (ts : List Token) : Prop := ts.IsChain fun a b => a = .sep ↔ b ≠ .sep

theorem Alternating.head?_ne_sep {ts : List Token} (h : Alternating (.sep :: ts)) :
    ts.head? ≠ some .sep := by
  cases ts with
  | nil => simp
  | cons t ts =>
      have hne := (List.isChain_cons_cons.mp h).1.mp rfl
      simpa using hne

theorem Alternating.head?_of_name {s : Str} {ts : List Token} (h : Alternating (.name s :: ts)) :
    ts = [] ∨ ∃ rest, ts = .sep :: rest := by
  cases ts with
  | nil => exact .inl rfl
  | cons t ts =>
      have hsep : t = .sep := by
        by_contra hne
        exact Token.noConfusion ((List.isChain_cons_cons.mp h).1.mpr hne)
      exact .inr ⟨ts, by rw [hsep]⟩

theorem Alternating.tail {t : Token} {ts : List Token} (h : Alternating (t :: ts)) :
    Alternating ts := h.of_cons

theorem Alternating.cons_sep {ts : List Token} (h : Alternating ts)
    (hhead : ts.head? ≠ some .sep) : Alternating (.sep :: ts) := by
  refine List.isChain_cons.mpr ⟨fun t ht => ⟨fun _ hsep => hhead (hsep ▸ ht), fun _ => rfl⟩, h⟩

theorem Alternating.cons_name {ts : List Token} (h : Alternating ts)
    (hhead : ts = [] ∨ ts.head? = some .sep) (s : Str) : Alternating (.name s :: ts) := by
  refine List.isChain_cons.mpr ⟨fun t ht => ⟨fun hsep => Token.noConfusion hsep, fun hne => ?_⟩, h⟩
  rcases hhead with rfl | hsep
  · simp at ht
  · exact absurd (Option.some.inj ((Option.mem_def.mp ht).symm.trans hsep)) hne

theorem ofPath_cons_ne_nil (c : Char) (rest : Str) : ofPath (c :: rest) ≠ [] := by
  unfold ofPath
  split <;> split <;> simp

/-- The tokens of a path alternate, name its components, and begin with a
separator exactly when the path is rooted. -/
theorem ofPath_spec (path : Str) :
    Alternating (ofPath path) ∧ names (ofPath path) = Scan.components '/' path ∧
      ((ofPath path).head? = some .sep ↔ path.head? = some '/') := by
  induction path with
  | nil => exact ⟨List.isChain_nil, by simp [ofPath], by simp [ofPath]⟩
  | cons c rest ih =>
      obtain ⟨halt, hnames, hroot⟩ := ih
      by_cases hc : c = '/'
      · subst c
        cases hrest : ofPath rest with
        | nil =>
            rw [hrest] at halt hnames
            simpa [ofPath, hrest, Alternating] using hnames
        | cons t ts =>
            rw [hrest] at halt hnames
            cases t with
            | sep => simpa [ofPath, hrest, hnames] using halt
            | name s =>
                refine ⟨?_, by simpa [ofPath, hrest] using hnames, by simp [ofPath, hrest]⟩
                simpa [ofPath, hrest] using halt.cons_sep (by simp)
      · rw [Scan.components_cons_of_ne hc, ← hnames]
        cases hrest : ofPath rest with
        | nil =>
            have hnil : rest = [] := by
              cases rest with
              | nil => rfl
              | cons d rest => exact absurd hrest (ofPath_cons_ne_nil d rest)
            simp [ofPath, hc, hnil, Alternating]
        | cons t ts =>
            have hne : rest ≠ [] := by
              rintro rfl
              exact List.cons_ne_nil _ _ hrest.symm
            rw [hrest] at halt hroot
            cases t with
            | sep =>
                have hslash : rest.head? = some '/' := hroot.mp rfl
                refine ⟨?_, by simp [ofPath, hc, hrest, hslash], by simp [ofPath, hc, hrest]⟩
                simpa [ofPath, hc, hrest] using halt.cons_name (.inr rfl) [c]
            | name s =>
                have hslash : rest.head? ≠ some '/' := fun h => by simpa using hroot.mpr h
                refine ⟨?_, by simp [ofPath, hc, hrest, hne, hslash], by simp [ofPath, hc, hrest]⟩
                have hts := halt.head?_of_name
                have hhead : ts = [] ∨ ts.head? = some .sep := by
                  rcases hts with h | ⟨_, h⟩ <;> simp [h]
                simpa [ofPath, hc, hrest] using halt.tail.cons_name hhead (c :: s)

/-- Removing a filename with its separator filters the names. It neither puts
two tokens of a kind side by side nor changes whether a separator comes first. -/
theorem removeEach_spec (x : Str) {ts : List Token} (h : Alternating ts) :
    Alternating (removeEach x ts) ∧ names (removeEach x ts) = (names ts).filter (· ≠ x) ∧
      ((removeEach x ts).head? = some .sep ↔ ts.head? = some .sep) := by
  fun_induction removeEach x ts with
  | case1 => exact ⟨h, rfl, Iff.rfl⟩
  | case2 ts ih =>
      obtain ⟨halt, hnames, hhead⟩ := ih h.tail
      exact ⟨halt.cons_sep (hhead.not.mpr h.head?_ne_sep), hnames, by simp⟩
  | case3 ts ih =>
      obtain ⟨halt, hnames, hhead⟩ := ih h.tail.tail
      refine ⟨halt, by simpa using hnames, ?_⟩
      simpa using hhead.not.mpr h.tail.head?_ne_sep
  | case4 s ts hs ih =>
      obtain ⟨halt, hnames, hhead⟩ := ih h.tail.tail
      have hsep := halt.cons_sep (hhead.not.mpr h.tail.head?_ne_sep)
      exact ⟨hsep.cons_name (.inr rfl) s, by simpa [hs] using hnames, by simp⟩
  | case5 ts hts ih =>
      rcases h.head?_of_name with rfl | ⟨rest, rfl⟩
      · simp [removeEach, Alternating]
      · exact absurd rfl (hts rest)
  | case6 s ts hts hs ih =>
      rcases h.head?_of_name with rfl | ⟨rest, rfl⟩
      · simp [removeEach, Alternating, hs]
      · exact absurd rfl (hts rest)

theorem Alternating.append {a b : List Token} (ha : Alternating a) (hb : Alternating b)
    (hjoin : ∀ t ∈ a.getLast?, ∀ u ∈ b.head?, (t = .sep ↔ u ≠ .sep)) : Alternating (a ++ b) :=
  List.isChain_append.mpr ⟨ha, hb, hjoin⟩

/-- One removal keeps the tokens alternating and the first token's kind. -/
theorem RemovePair.spec {ts ts' : List Token} (hstep : RemovePair ts ts') (h : Alternating ts) :
    Alternating ts' ∧ (ts'.head? = some .sep ↔ ts.head? = some .sep) := by
  cases hstep with
  | @pair a b s hs =>
      obtain ⟨ha, hrest, hjoin⟩ := List.isChain_append.mp h
      have hb : Alternating (.name dotdot :: b) := hrest.of_cons.of_cons
      -- what is left of `b` begins with a filename, like the part taken out
      have hdrop : Alternating (dropSep b) ∧ (dropSep b).head? ≠ some .sep := by
        rcases hb.head?_of_name with rfl | ⟨rest, rfl⟩
        · exact ⟨List.isChain_nil, by simp [dropSep]⟩
        · exact ⟨hb.tail.tail, hb.tail.head?_ne_sep⟩
      refine ⟨Alternating.append ha hdrop.1 ?_, ?_⟩
      · intro t ht u hu
        have hsep : t = .sep := by
          by_contra hne
          exact hne ((hjoin t ht (.name s) (by simp)).mpr (by simp))
        exact ⟨fun _ husep => hdrop.2 (husep ▸ hu), fun _ => hsep⟩
      · cases a with
        | nil => simpa using hdrop.2
        | cons t a => simp

/-- Two neighbouring names have one separator between them. -/
theorem Alternating.exists_of_names {ts : List Token} (h : Alternating ts)
    {na nb : List Str} {s s' : Str} (hnames : names ts = na ++ s :: s' :: nb) :
    ∃ a b, ts = a ++ .name s :: .sep :: .name s' :: b := by
  induction ts generalizing na with
  | nil => simp at hnames
  | cons t ts ih =>
      cases t with
      | sep =>
          obtain ⟨a, b, rfl⟩ := ih h.tail hnames
          exact ⟨.sep :: a, b, rfl⟩
      | name u =>
          cases na with
          | cons _ na =>
              obtain ⟨a, b, rfl⟩ := ih h.tail (List.cons.inj hnames).2
              exact ⟨.name u :: a, b, rfl⟩
          | nil =>
              obtain ⟨rfl, hrest⟩ := List.cons.inj hnames
              rcases h.head?_of_name with rfl | ⟨rest, rfl⟩
              · simp at hrest
              · cases rest with
                | nil => simp at hrest
                | cons v rest =>
                    cases v with
                    | sep => exact absurd rfl h.tail.head?_ne_sep
                    | name v =>
                        obtain ⟨rfl, _⟩ := List.cons.inj hrest
                        exact ⟨[], rest, rfl⟩

/-- Written out, alternating tokens are their names joined by slashes, with a
slash in front for a root and one behind for a separator at the end. -/
theorem text_eq {ts : List Token} (h : Alternating ts) :
    ∃ trailing : Str, (trailing = [] ∨ trailing = ['/'] ∧ names ts ≠ []) ∧
      text ts = (if ts.head? = some .sep then ['/'] else []) ++
        ['/'].intercalate (names ts) ++ trailing := by
  induction ts with
  | nil => exact ⟨[], .inl rfl, by simp [text, List.intercalate]⟩
  | cons t ts ih =>
      obtain ⟨trailing, htrail, htext⟩ := ih h.tail
      cases t with
      | sep =>
          rw [if_neg h.head?_ne_sep] at htext
          exact ⟨trailing, htrail, by simp [text, htext]⟩
      | name s =>
          rcases h.head?_of_name with rfl | ⟨rest, rfl⟩
          · exact ⟨[], .inl rfl, by simp [text, List.intercalate]⟩
          · by_cases hnil : names rest = []
            · refine ⟨['/'], .inr ⟨rfl, by simp⟩, ?_⟩
              have hempty : trailing = [] := htrail.resolve_right (fun h => h.2 hnil)
              simpa [text, hnil, hempty, List.intercalate] using htext
            · obtain ⟨s', ns, hns⟩ := List.exists_cons_of_ne_nil hnil
              refine ⟨trailing, htrail.imp_right (fun h => ⟨h.1, by simp⟩), ?_⟩
              have hrest : text rest = ['/'].intercalate (s' :: ns) ++ trailing := by
                simpa [text, hns] using htext
              simp [text, hrest, hns, List.intercalate]

end Token

theorem walk_filter_dot (m : Place Name) (pieces : List Str) :
    m.walk ((pieces.filter (· ≠ dot)).map moveOf) = m.walk (pieces.map moveOf) := by
  induction pieces generalizing m with
  | nil => rfl
  | cons piece pieces ih =>
      by_cases h : piece = dot
      · rw [List.filter_cons_of_neg (by simpa using h), ih, List.map_cons, h,
          moveOf_stay (.inr rfl)]
        rfl
      · rw [List.filter_cons_of_pos (by simpa using h), List.map_cons, List.map_cons,
          Place.walk_cons, ih, Place.walk_cons]

/-- What the rewriting of `path` keeps: the shape of the tokens, the root, and
the place that the filenames walk to. -/
structure Represents (path : Str) (ts : List Token) : Prop where
  alternating : Alternating ts
  root : ts.head? = some .sep ↔ isRooted path = true
  pieces : ∀ s ∈ names ts, s ≠ [] ∧ s ≠ dot ∧ '/' ∉ s
  walk : (Place.start (isRooted path)).walk ((names ts).map moveOf) = place path

namespace Represents

theorem removeDots (path : Str) : Represents path (removeEach dot (ofPath path)) := by
  obtain ⟨halt, hnames, hroot⟩ := ofPath_spec path
  obtain ⟨halt', hnames', hhead⟩ := removeEach_spec dot halt
  rw [hnames] at hnames'
  refine ⟨halt', by rw [hhead, hroot, isRooted, beq_iff_eq], ?_, ?_⟩
  · intro s hs
    rw [hnames', List.mem_filter] at hs
    obtain ⟨hne, hfree⟩ := Scan.of_mem_components hs.1
    exact ⟨hne, by simpa using hs.2, hfree⟩
  · rw [hnames', walk_filter_dot, place]

theorem step {path : Str} {ts ts' : List Token} (h : Represents path ts)
    (hstep : RemovePair ts ts') : Represents path ts' := by
  obtain ⟨halt, hhead⟩ := hstep.spec h.alternating
  cases hstep with
  | @pair a b s hs =>
      have hpiece := h.pieces s (by simp)
      have hname : IsName s := ⟨hpiece.1, hpiece.2.1, hs, hpiece.2.2⟩
      refine ⟨halt, hhead.trans h.root, ?_, ?_⟩
      · intro u hu
        simp only [names_append, names_dropSep, List.mem_append] at hu
        exact h.pieces u (by simp; tauto)
      · rw [← h.walk]
        have hcancel := Cancel.pair ((names a).map moveOf) ((names b).map moveOf) ⟨s, hname⟩
        have hwalk := hcancel.walk_eq (Place.start (isRooted path))
        simp only [names_append, names_dropSep, names_name, names_sep, List.map_append,
          List.map_cons, moveOf_of_isName hname, moveOf_dotdot]
        exact hwalk

theorem steps {path : Str} {ts ts' : List Token} (h : Represents path ts)
    (hsteps : Relation.ReflTransGen RemovePair ts ts') : Represents path ts' := by
  induction hsteps with
  | refl => exact h
  | tail _ hstep ih => exact ih.step hstep

theorem stay_not_mem {path : Str} {ts : List Token} (h : Represents path ts) :
    Move.stay ∉ (names ts).map moveOf := by
  intro hmem
  obtain ⟨s, hs, hmove⟩ := List.mem_map.mp hmem
  obtain ⟨hne, hdot, hfree⟩ := h.pieces s hs
  rcases piece_cases hfree with (rfl | rfl) | rfl | hname
  · exact hne rfl
  · exact hdot rfl
  · simp at hmove
  · simp [moveOf_of_isName hname] at hmove

theorem map_textOf {path : Str} {ts : List Token} (h : Represents path ts) :
    ((names ts).map moveOf).map textOf = names ts := by
  rw [List.map_map]
  refine List.map_congr_left (fun s hs => ?_) |>.trans (List.map_id _)
  obtain ⟨hne, hdot, hfree⟩ := h.pieces s hs
  rcases piece_cases hfree with (rfl | rfl) | rfl | hname
  · exact absurd rfl hne
  · exact absurd rfl hdot
  · simp [textOf]
  · simp [moveOf_of_isName hname, textOf]

/-- When no pair can be removed, the filenames are in canonical order. -/
theorem exists_of_stuck {path : Str} {ts : List Token} (h : Represents path ts)
    (hstuck : ∀ ts', ¬ RemovePair ts ts') :
    ∃ (k : Nat) (ns : List Name),
      (names ts).map moveOf = List.replicate k .up ++ ns.map .down := by
  apply exists_of_irreducible h.stay_not_mem
  intro l' hcancel
  generalize hl : (names ts).map moveOf = l at hcancel
  cases hcancel with
  | pair a b n =>
      obtain ⟨na, rest, hna, rfl, hrest⟩ := List.map_eq_append_iff.mp hl
      obtain ⟨s, rest, rfl, hs, hrest⟩ := List.map_eq_cons_iff.mp hrest
      obtain ⟨s', nb, rfl, hs', rfl⟩ := List.map_eq_cons_iff.mp hrest
      have hdd : s' = dotdot := by
        have hpiece := h.pieces s' (by simp [hna])
        rcases piece_cases hpiece.2.2 with (rfl | rfl) | hdd | hname
        · exact absurd rfl hpiece.1
        · exact absurd rfl hpiece.2.1
        · exact hdd
        · simp [moveOf_of_isName hname] at hs'
      obtain ⟨ta, tb, rfl⟩ := h.alternating.exists_of_names hna
      subst hdd
      refine hstuck _ (.pair ta tb ?_)
      rintro rfl
      simp at hs

end Represents

/-- The trailing-separator rule touches neither names nor the first token. -/
theorem dropSepAfterDotdot_spec {ts : List Token} (h : Alternating ts) :
    Alternating (dropSepAfterDotdot ts) ∧ names (dropSepAfterDotdot ts) = names ts ∧
      (dropSepAfterDotdot ts).head? = ts.head? := by
  unfold dropSepAfterDotdot
  split
  · next hlast =>
      obtain ⟨front, hfront⟩ := List.getLast?_eq_some_iff.mp hlast.1
      rw [hfront, List.dropLast_concat] at hlast ⊢
      rw [hfront] at h
      refine ⟨(List.isChain_append.mp h).1, by simp, ?_⟩
      cases front with
      | nil => simp at hlast
      | cons t front => rfl
  · exact ⟨h, rfl, rfl⟩

theorem eq_of_names_nil {ts : List Token} (h : Alternating ts) (hnil : names ts = []) :
    ts = [] ∨ ts = [.sep] := by
  match ts with
  | [] => exact .inl rfl
  | [.sep] => exact .inr rfl
  | .name s :: ts => simp at hnil
  | .sep :: .sep :: ts => exact absurd rfl h.head?_ne_sep
  | .sep :: .name s :: ts => simp at hnil

/-- `normalEnd` drops the separator that the rewriting may leave at the end. -/
theorem normalEnd_text {ts : List Token} (halt : Alternating ts)
    (hpieces : ∀ s ∈ names ts, s ≠ [] ∧ '/' ∉ s) (hne : names ts ≠ []) :
    normalEnd .posix (text ts) =
      (if ts.head? = some .sep then ['/'] else []) ++ ['/'].intercalate (names ts) := by
  obtain ⟨trailing, htrail, htext⟩ := text_eq halt
  have hjoin : ['/'].intercalate (names ts) ≠ [] := by
    intro hnil
    have hback := Scan.components_intercalate hpieces
    rw [hnil, Scan.components_nil] at hback
    exact hne hback.symm
  have hlast := Scan.getLast?_intercalate_ne hpieces
  rw [htext]
  rcases htrail with rfl | ⟨rfl, _⟩
  · rw [List.append_nil]
    refine normalEnd_of_getLast (by simp [hjoin]) ?_
    rwa [List.getLast?_append_of_ne_nil _ hjoin]
  · exact normalEnd_append_slash (by simp [hjoin])

/-- Tokens that spell a place in canonical order render that place. -/
theorem normalEnd_text_dotIfEmpty {ts : List Token} {m : Place Name} (halt : Alternating ts)
    (hnames : names ts = parts m) (hroot : ts.head? = some .sep ↔ m.rooted = true) :
    normalEnd .posix (text (dotIfEmpty ts)) = render m := by
  by_cases hnil : names ts = []
  · rcases eq_of_names_nil halt hnil with rfl | rfl
    · have hm : m.rooted = false := by simpa using hroot
      rw [render, if_neg (by simp [hm]), if_pos (hnames ▸ hnil)]
      rfl
    · have hm : m.rooted = true := hroot.mp rfl
      rw [render, if_pos hm, ← hnames]
      rfl
  · have hts : ts ≠ [] := by
      rintro rfl
      exact hnil rfl
    have hpieces : ∀ s ∈ names ts, s ≠ [] ∧ '/' ∉ s := hnames ▸ parts_ok m
    rw [dotIfEmpty, if_neg hts, normalEnd_text halt hpieces hnil, hnames]
    by_cases hm : m.rooted = true
    · rw [if_pos (hroot.mpr hm), render, if_pos hm]
      rfl
    · rw [if_neg (hroot.not.mpr hm), render, if_neg hm, if_neg (hnames ▸ hnil)]
      rfl

/-- After the root rule an exhausted rewriting names the parts of the place. -/
theorem Represents.names_removeDotdotsAtRoot {path : Str} {ts : List Token}
    (h : Represents path ts) (hstuck : ∀ ts', ¬ RemovePair ts ts') :
    names (removeDotdotsAtRoot ts) = parts (place path) := by
  obtain ⟨k, ns, hmoves⟩ := h.exists_of_stuck hstuck
  have hnames : names ts = List.replicate k dotdot ++ ns.map Subtype.val := by
    rw [← h.map_textOf, hmoves, List.map_append, List.map_replicate, List.map_map]
    rfl
  rw [← h.walk, hmoves]
  cases hroot : isRooted path with
  | true =>
      have hfilter : (ns.map Subtype.val).filter (· ≠ dotdot) = ns.map Subtype.val := by
        refine List.filter_eq_self.mpr (fun s hs => ?_)
        obtain ⟨n, _, rfl⟩ := List.mem_map.mp hs
        simpa using n.2.2.2.1
      rw [removeDotdotsAtRoot, if_pos (h.root.mpr hroot),
        (removeEach_spec dotdot h.alternating).2.1,
        hnames, List.filter_append, hfilter, Place.walk_append,
        Place.walk_replicate_up_of_rooted rfl rfl, Place.walk_map_down]
      simp [parts_eq]
  | false =>
      rw [removeDotdotsAtRoot, if_neg (by simp [h.root, hroot]), hnames, parts,
        Place.moves_walk_start (by simp), List.map_append, List.map_replicate, List.map_map]
      rfl

/-- The last rules write, up to one separator at the end, the normal form of
the place that an exhausted rewriting stands for. -/
theorem normalEnd_finish {path : Str} {ts : List Token} (h : Represents path ts)
    (hstuck : ∀ ts', ¬ RemovePair ts ts') :
    normalEnd .posix (text (dotIfEmpty (dropSepAfterDotdot (removeDotdotsAtRoot ts)))) =
      render (place path) := by
  have hnames := h.names_removeDotdotsAtRoot hstuck
  have hspec : Alternating (removeDotdotsAtRoot ts) ∧
      ((removeDotdotsAtRoot ts).head? = some .sep ↔ ts.head? = some .sep) := by
    unfold removeDotdotsAtRoot
    split
    · exact ⟨(removeEach_spec dotdot h.alternating).1, (removeEach_spec dotdot h.alternating).2.2⟩
    · exact ⟨h.alternating, Iff.rfl⟩
  obtain ⟨halt, hsame, hhead⟩ := dropSepAfterDotdot_spec hspec.1
  refine normalEnd_text_dotIfEmpty halt (hsame.trans hnames) ?_
  rw [hhead, hspec.2, h.root]
  simp [place]

/-- What the `<filesystem>` backend returns is given by the place of the path. -/
theorem normalEnd_of_lexicallyNormal {path r : Str} (h : LexicallyNormal path r) :
    normalEnd .posix r = render (place path) := by
  obtain ⟨ts, hsteps, hstuck, rfl⟩ := h
  exact normalEnd_finish ((Represents.removeDots path).steps hsteps) hstuck

/-- Some order of removals reaches the end. -/
theorem exists_lexicallyNormal (path : Str) : ∃ r, LexicallyNormal path r := by
  have hend : ∀ (n : Nat) (ts : List Token), ts.length = n →
      ∃ ts', Relation.ReflTransGen RemovePair ts ts' ∧ ∀ ts'', ¬ RemovePair ts' ts'' := by
    intro n
    induction n using Nat.strongRecOn with
    | ind n ih =>
        intro ts hlen
        by_cases hstuck : ∀ ts'', ¬ RemovePair ts ts''
        · exact ⟨ts, .refl, hstuck⟩
        · obtain ⟨next, hstep⟩ := not_forall_not.mp hstuck
          have hless : next.length < n := by
            cases hstep with
            | @pair a b s hs =>
                have hdrop : (dropSep b).length ≤ b.length := by
                  unfold dropSep
                  split <;> simp
                simp only [List.length_append, List.length_cons] at hlen ⊢
                omega
          obtain ⟨ts', hsteps, hdone⟩ := ih next.length hless next rfl
          exact ⟨ts', .head hstep hsteps, hdone⟩
  obtain ⟨ts, hsteps, hdone⟩ := hend _ (removeEach dot (ofPath path)) rfl
  exact ⟨_, ts, hsteps, hdone, rfl⟩

/-- The two backends agree: whatever order the pairs are removed in, what
`normal` returns is the string that the component stack gives. -/
theorem normal_eq_of_lexicallyNormal (path : Str) :
    (∃ r, LexicallyNormal path r) ∧
      ∀ r, LexicallyNormal path r → normal .posix path = normalEnd .posix r := by
  refine ⟨exists_lexicallyNormal path, ?_⟩
  intro r hr
  rw [normal_eq_render, normalEnd_of_lexicallyNormal hr]

end Ffilesystem
