import Ffilesystem.Absolute
import Ffilesystem.FileName
import Ffilesystem.Home
import Ffilesystem.Meaning
import Ffilesystem.Realpath

/-!
# Path expressions through the Fortran interface

A Fortran program hands every path on with its last blanks trimmed and a null
character behind it, to a C function that reads it up to the first null character
and writes its result into a buffer of one character more than the longest path.
What comes back is cut to the length that the C function reports.

A program nests such calls, and a blank at the end of a result in between would be
lost. `Tidy` texts have no blank at an end, and none that becomes one by a cut at a
separator or at a dot. Every function keeps them tidy, so that a nest of calls has
the value in Fortran that it has in C++ (`evalFortran_eq`).
-/

namespace Ffilesystem

open FileTree Lexical

inductive Unary
  | normal
  | parent
  | fileName
  | stem
  | suffix
  | root
  | rootDirectory
  | rootName
  | expanduser
  | canonical (strict : Bool)
  | resolve (strict : Bool)
  deriving DecidableEq, Repr

inductive Binary
  | join
  | withSuffix
  | absolute
  deriving DecidableEq, Repr

section Calls

variable (sys : System) (home : HomeEnv)

/-- The C++ function, in the POSIX C backend. -/
def Unary.apply : Unary → Str → Str
  | .normal, path => Ffilesystem.normal .posix path
  | .parent, path => Ffilesystem.parent .c path
  | .fileName, path => Ffilesystem.fileName .posix path
  | .stem, path => Ffilesystem.stem .posix path
  | .suffix, path => Ffilesystem.suffix .posix path
  | .root, path => Ffilesystem.root .posix path
  | .rootDirectory, path => Ffilesystem.rootDirectory .posix path
  | .rootName, path => Ffilesystem.rootName .posix path
  | .expanduser, path => Ffilesystem.expanduser .posix home path
  | .canonical strict, path => Ffilesystem.canonical sys path strict
  | .resolve strict, path => Ffilesystem.resolve sys path strict

def Binary.apply : Binary → Str → Str → Str
  | .join, path, other => Ffilesystem.join .posix path other
  | .withSuffix, path, new => Ffilesystem.withSuffix path new
  | .absolute, path, base => absoluteBase sys.getCwd path base

/-- The C function: arguments and result are C strings. -/
def Unary.call (f : Unary) (path result : Str) (bufferSize : Nat) : Nat × Str :=
  fsStr2char (f.apply sys home (cStr path)) result bufferSize

def Binary.call (f : Binary) (path other result : Str) (bufferSize : Nat) : Nat × Str :=
  fsStr2char (f.apply sys (cStr path) (cStr other)) result bufferSize

/-- `trim(path) // C_NULL_CHAR`. -/
def cArgument (path : Str) : Str := trimBlanks path ++ ['\x00']

/-- `cbuf(:N)`, where `cbuf` is the buffer after the call and `N` its result. -/
def received (call : Nat × Str) : Str := call.2.take call.1

/-- The text in a buffer of `max_path() + 1` characters. -/
abbrev Buffer (size : Nat) := { cbuf : Str // cbuf.length = size }

variable (cbuf : Str)

/-- The Fortran function. `cbuf` is the new buffer, with any text in it. -/
def Unary.fortran (f : Unary) (path : Str) : Str :=
  received (f.call sys home (cArgument path) cbuf cbuf.length)

def Binary.fortran (f : Binary) (path other : Str) : Str :=
  received (f.call sys (cArgument path) (cArgument other) cbuf cbuf.length)

end Calls

/-- A nest of calls. A character variable is longer than its text, and filled up
with blanks. -/
inductive PathExpr
  | text (s : Str) (blanks : Nat)
  | unary (f : Unary) (e : PathExpr)
  | binary (f : Binary) (a b : PathExpr)
  deriving DecidableEq, Repr

namespace PathExpr

variable (sys : System) (home : HomeEnv)

/-- The value in C++, where a string is as long as its text. -/
def eval : PathExpr → Str
  | .text s _ => s
  | .unary f e => f.apply sys home e.eval
  | .binary f a b => f.apply sys a.eval b.eval

/-- The value in Fortran. Each call has a buffer of its own, which is found by the
arguments that lead to the call from the outermost one. -/
def evalFortran {size : Nat} (cbufs : List Bool → Buffer size) : PathExpr → List Bool → Str
  | .text s blanks, _ => s ++ List.replicate blanks ' '
  | .unary f e, site => f.fortran sys home (cbufs site).1 (e.evalFortran cbufs (false :: site))
  | .binary f a b, site =>
      f.fortran sys (cbufs site).1 (a.evalFortran cbufs (false :: site))
        (b.evalFortran cbufs (true :: site))

/-- Every result fits into a buffer, with a null character behind it. -/
def HasRoom (size : Nat) : PathExpr → Prop
  | .text _ _ => True
  | .unary f e => e.HasRoom size ∧ ((unary f e).eval sys home).length < size
  | .binary f a b =>
      a.HasRoom size ∧ b.HasRoom size ∧ ((binary f a b).eval sys home).length < size

/-- The blanks behind the value. A function returns none. -/
def blanks : PathExpr → Nat
  | .text _ blanks => blanks
  | .unary _ _ => 0
  | .binary _ _ _ => 0

/-- Every text in the expression is such. -/
def Texts (P : Str → Prop) : PathExpr → Prop
  | .text s _ => P s
  | .unary _ e => e.Texts P
  | .binary _ a b => a.Texts P ∧ b.Texts P

end PathExpr

section Transport

variable {sys : System} {home : HomeEnv} {cbuf : Str}

theorem cStr_cArgument (path : Str) : cStr (cArgument path) = cStr (trimBlanks path) := by
  rw [cArgument]
  by_cases hmem : '\x00' ∈ trimBlanks path
  · exact cStr_append_of_mem hmem _
  · rw [cStr_append_of_not_mem hmem, cStr_cons_nul, List.append_nil, cStr_of_not_mem hmem]

/-- A text that fits into the buffer is received, and nothing otherwise. -/
theorem received_fsStr2char (s cbuf : Str) :
    received (fsStr2char s cbuf cbuf.length) = if s.length < cbuf.length then s else [] := by
  rw [fsStr2char]
  split
  · rename_i hlong
    rw [if_neg (by omega)]
    exact List.take_zero
  · rename_i hroom
    rw [if_pos (by omega)]
    exact List.take_left

theorem unary_fortran_eq (f : Unary) (path : Str) :
    f.fortran sys home cbuf path =
      if (f.apply sys home (cStr (trimBlanks path))).length < cbuf.length then
        f.apply sys home (cStr (trimBlanks path))
      else [] := by
  rw [Unary.fortran, Unary.call, cStr_cArgument, received_fsStr2char]

theorem binary_fortran_eq (f : Binary) (path other : Str) :
    f.fortran sys cbuf path other =
      if (f.apply sys (cStr (trimBlanks path)) (cStr (trimBlanks other))).length < cbuf.length then
        f.apply sys (cStr (trimBlanks path)) (cStr (trimBlanks other))
      else [] := by
  rw [Binary.fortran, Binary.call, cStr_cArgument, cStr_cArgument, received_fsStr2char]

end Transport

/-- The text holds no null character, and no blank at its end, in front of a
separator or in front of a dot. -/
def Tidy (s : Str) : Prop :=
  (s ++ ['/']).IsChain fun a b => a ≠ '\x00' ∧ (a = ' ' → b ≠ '/' ∧ b ≠ '.')

instance : DecidablePred Tidy := fun s => by
  unfold Tidy
  infer_instance

section Tidy

variable {a b s : Str}

theorem tidy_nil : Tidy [] := List.IsChain.singleton '/'

theorem Tidy.append (ha : Tidy a) (hb : Tidy b) : Tidy (a ++ b) := by
  obtain ⟨hfront, -, hlast⟩ := List.isChain_append.mp ha
  rw [Tidy, List.append_assoc]
  refine List.IsChain.append hfront hb fun x hx y _ => ?_
  obtain ⟨hnul, hblank⟩ := hlast x hx '/' rfl
  exact ⟨hnul, fun heq => absurd rfl (hblank heq).1⟩

theorem Tidy.of_append (h : Tidy (a ++ b)) : Tidy b := by
  rw [Tidy, List.append_assoc] at h
  exact h.right_of_append

theorem Tidy.of_suffix (h : Tidy s) (hsuffix : b <:+ s) : Tidy b := by
  obtain ⟨a, rfl⟩ := hsuffix
  exact h.of_append

/-- A cut at a separator or at a dot leaves a tidy text in front. -/
theorem Tidy.of_append_cons {c : Char} (hc : c = '/' ∨ c = '.') (h : Tidy (a ++ c :: b)) :
    Tidy a := by
  rw [Tidy, List.append_assoc, List.cons_append] at h
  obtain ⟨hfront, hlast⟩ := (List.isChain_append.mp (List.isChain_split.mp h).1).imp_right (·.2)
  refine List.IsChain.append hfront (.singleton _) fun x hx y hy => ?_
  obtain ⟨hnul, hblank⟩ := hlast x hx c rfl
  refine ⟨hnul, fun heq => ?_⟩
  rcases hc with rfl | rfl
  · exact absurd rfl (hblank heq).1
  · exact absurd rfl (hblank heq).2

theorem Tidy.nul_not_mem (h : Tidy s) : '\x00' ∉ s := by
  intro hmem
  obtain ⟨a, b, rfl⟩ := List.append_of_mem hmem
  have hchain : (('\x00' :: b) ++ ['/']).IsChain _ := h.of_append
  cases b with
  | nil => exact (List.isChain_cons_cons.mp hchain).1.1 rfl
  | cons c b => exact (List.isChain_cons_cons.mp hchain).1.1 rfl

theorem Tidy.cStr_eq (h : Tidy s) : cStr s = s := cStr_of_not_mem h.nul_not_mem

/-- Blanks behind a tidy text are trimmed, and nothing else. -/
theorem Tidy.trimBlanks_append (h : Tidy s) (n : Nat) :
    trimBlanks (s ++ List.replicate n ' ') = s := by
  rw [trimBlanks]
  induction n with
  | zero =>
      rw [List.replicate_zero, List.append_nil, List.rdropWhile_eq_self_iff]
      intro hne hblank
      have hlast : Tidy [s.getLast hne] :=
        h.of_suffix ⟨s.dropLast, List.dropLast_append_getLast hne⟩
      rw [of_decide_eq_true hblank] at hlast
      exact absurd hlast (by decide)
  | succ n ih =>
      rw [List.replicate_succ', ← List.append_assoc, List.rdropWhile_concat_pos _ _ _ (by decide),
        ih]

/-- Components are cut out at separators. -/
theorem Tidy.of_mem_components (h : Tidy s) {piece : Str}
    (hpiece : piece ∈ Scan.components '/' s) : Tidy piece := by
  induction hlen : s.length using Nat.strongRecOn generalizing s with
  | ind n ih =>
      by_cases hslash : '/' ∈ s
      · obtain ⟨a, b, rfl⟩ := List.append_of_mem hslash
        rw [List.length_append, List.length_cons] at hlen
        rw [Scan.components_append_cons] at hpiece
        rcases List.mem_append.mp hpiece with hfront | hback
        · exact ih a.length (by omega) (h.of_append_cons (.inl rfl)) hfront rfl
        · exact ih b.length (by omega) (h.of_suffix ⟨a ++ ['/'], by simp⟩) hback rfl
      · by_cases hnil : s = []
        · rw [hnil, Scan.components_nil] at hpiece
          cases hpiece
        · rw [Scan.components_of_not_mem hnil hslash] at hpiece
          exact List.mem_singleton.mp hpiece ▸ h

theorem tidy_intercalate {pieces : List Str} (h : ∀ piece ∈ pieces, Tidy piece) :
    Tidy (['/'].intercalate pieces) := by
  induction pieces with
  | nil => exact tidy_nil
  | cons piece pieces ih =>
      have hpiece := h piece List.mem_cons_self
      have hrest := ih fun p hp => h p (List.mem_cons_of_mem _ hp)
      cases pieces with
      | nil => simpa [List.intercalate] using hpiece
      | cons next pieces =>
          rw [List.intercalate_cons_of_ne_nil (by simp)]
          exact (hpiece.append (by decide)).append hrest

end Tidy

section Functions

variable {path other : Str}

theorem tidy_normal (h : Tidy path) : Tidy (normal .posix path) := by
  have hparts : ∀ part ∈ parts (place path), Tidy part := by
    intro part hpart
    rw [parts_eq, List.mem_append] at hpart
    rcases hpart with hup | hname
    · rw [List.eq_of_mem_replicate hup]
      decide
    · obtain ⟨n, hn, rfl⟩ := List.mem_map.mp hname
      exact h.of_mem_components (mem_components_of_mem_names hn)
  have hjoin := tidy_intercalate hparts
  rw [normal_eq_render, render]
  split
  · exact Tidy.append (by decide : Tidy ['/']) hjoin
  · split
    · decide
    · exact hjoin

/-- What is in front of a run of separators is tidy. -/
theorem Tidy.rdropWhile_slash (h : Tidy path) : Tidy (path.rdropWhile (· = '/')) := by
  have hcut : path.rdropWhile (· = '/') ++ path.rtakeWhile (· = '/') = path :=
    List.rdropWhile_append_rtakeWhile
  cases hrun : path.rtakeWhile (· = '/') with
  | nil =>
      rw [hrun, List.append_nil] at hcut
      rwa [hcut]
  | cons c run =>
      have hc : c = '/' := by
        have hmem : c ∈ path.rtakeWhile (· = '/') := hrun ▸ List.mem_cons_self
        simpa using List.mem_rtakeWhile_imp hmem
      rw [hrun] at hcut
      exact Tidy.of_append_cons (.inl hc) (hcut.symm ▸ h)

theorem Tidy.upToLastSlash (h : Tidy path) : Tidy (upToLastSlash path) := by
  have hcut : Ffilesystem.upToLastSlash path ++ path.rtakeWhile (· ≠ '/') = path :=
    List.rdropWhile_append_rtakeWhile
  rcases List.eq_nil_or_concat' (Ffilesystem.upToLastSlash path) with hnil | ⟨front, c, hfront⟩
  · rw [hnil]
    exact tidy_nil
  · have hne : Ffilesystem.upToLastSlash path ≠ [] := hfront ▸ List.concat_ne_nil c front
    have hget : (Ffilesystem.upToLastSlash path).getLast hne = c := by
      simp only [hfront, List.getLast_append_singleton]
    obtain rfl : c = '/' := by
      have hlast : ¬ decide ((Ffilesystem.upToLastSlash path).getLast hne ≠ '/') = true :=
        List.rdropWhile_last_not _ path hne
      simpa [hget] using hlast
    rw [hfront, List.append_assoc, List.singleton_append] at hcut
    rw [hfront]
    exact Tidy.append (Tidy.of_append_cons (.inl rfl) (hcut.symm ▸ h)) (by decide)

theorem tidy_dirname (h : Tidy path) : Tidy (dirname path) := by
  have hfront : ∀ text : Str, Tidy text → Tidy
      (if upToLastSlash text = [] then dot
      else if (upToLastSlash text).rdropWhile (· = '/') = [] then
        if upToLastSlash text = ['/', '/'] then upToLastSlash text else ['/']
      else (upToLastSlash text).rdropWhile (· = '/')) := by
    intro text htext
    split
    · decide
    · split
      · split
        · exact htext.upToLastSlash
        · decide
      · exact htext.upToLastSlash.rdropWhile_slash
  apply hfront
  split
  · exact h
  · exact h.rdropWhile_slash

theorem tidy_parent (h : Tidy path) : Tidy (parent .c path) := by
  rw [parent, h.cStr_eq]
  exact tidy_dirname h

theorem tidy_fileName (h : Tidy path) : Tidy (fileName .posix path) :=
  h.of_suffix (fileName_suffix .posix path)

/-- A stem ends in front of a dot. -/
theorem tidy_stem (h : Tidy path) : Tidy (stem .posix path) := by
  have hname := tidy_fileName h
  rw [stem]
  split
  · exact hname
  · by_cases hdot : '.' ∈ fileName .posix path
    · obtain ⟨front, back, hcut, hfree⟩ := Scan.exists_last_of_mem hdot
      rw [hcut] at hname ⊢
      simp only [Scan.rfind_append_cons front hfree]
      split
      · rw [List.take_left]
        exact hname.of_append_cons (.inr rfl)
      · exact hname
    · rw [Scan.rfind_eq_none_iff.mpr hdot]
      exact hname

theorem tidy_suffix (h : Tidy path) : Tidy (suffix .posix path) := by
  have hname := tidy_fileName h
  simp only [suffix]
  split
  · split
    · exact hname.of_suffix (List.drop_suffix _ _)
    · exact tidy_nil
  · exact tidy_nil

theorem tidy_rootDirectory (path : Str) : Tidy (rootDirectory .posix path) := by
  rw [rootDirectory, if_neg (by decide)]
  cases path with
  | nil => exact tidy_nil
  | cons c rest =>
      by_cases hc : c = '/'
      · subst hc
        exact (by decide : Tidy ['/'])
      · rw [List.head?_cons, Option.filter_some, if_neg (by simpa using hc)]
        exact tidy_nil

theorem tidy_join (h : Tidy path) (hother : Tidy other) : Tidy (join .posix path other) := by
  have hsep : Tidy (path ++ '/' :: other) :=
    h.append (Tidy.append (by decide : Tidy ['/']) hother)
  rw [join]
  split
  · exact hother
  · split
    · exact Tidy.append tidy_nil hother
    · split
      · exact hsep
      · exact h.append hother

theorem tidy_withSuffix (h : Tidy path) (hother : Tidy other) : Tidy (withSuffix path other) := by
  have hparent := tidy_parent h
  have hstem := tidy_stem h
  simp only [withSuffix]
  split
  · exact tidy_join h hother
  · refine Tidy.append ?_ hother
    split
    · exact hstem
    · refine Tidy.append ?_ hstem
      split
      · exact hparent.append (by decide)
      · exact hparent

end Functions

/-- Every entry has a tidy name, and so have the directories on the way to the home
directory. -/
structure TidyNames (sys : System) (home : HomeEnv) : Prop where
  entries : ∀ e ∈ sys.tree.entries, Tidy e.name.1
  home : Tidy (getHomedir .posix home)

section Environment

variable {sys : System} {home : HomeEnv} {path other : Str}

theorem tidy_absString {R : List FileName} (h : ∀ name ∈ R, Tidy name.1) : Tidy (absString R) := by
  have hpieces : ∀ piece ∈ R.map Subtype.val, Tidy piece := by
    intro piece hpiece
    obtain ⟨name, hname, rfl⟩ := List.mem_map.mp hpiece
    exact h name hname
  exact Tidy.append (by decide : Tidy ['/']) (tidy_intercalate hpieces)

/-- The way to a directory is made of names of entries. -/
theorem TidyNames.isDir (h : TidyNames sys home) {R : List FileName} (hR : sys.tree.IsDir R) :
    ∀ name ∈ R, Tidy name.1 := by
  induction R using List.reverseRecOn with
  | nil => exact fun name hname => absurd hname List.not_mem_nil
  | append_singleton R last ih =>
      obtain ⟨hdir, hlookup⟩ := hR.exists_lookup
      intro name hname
      rcases List.mem_append.mp hname with hfront | hlast
      · exact ih hdir name hfront
      · rw [List.mem_singleton.mp hlast]
        exact h.entries _ (Tree.lookup_eq_some_iff.mp hlookup).1

theorem TidyNames.stands (h : TidyNames sys home) {spot : Spot FileName}
    (hspot : sys.tree.Stands spot) : Tidy (absString spot.path) := by
  apply tidy_absString
  cases spot with
  | dir R => exact h.isDir hspot
  | file R name ino =>
      intro n hn
      rcases List.mem_append.mp hn with hfront | hlast
      · exact h.isDir (sys.tree.housed _ hspot) n hfront
      · rw [List.mem_singleton.mp hlast]
        exact h.entries _ hspot

theorem TidyNames.cwd (h : TidyNames sys home) : Tidy sys.getCwd :=
  tidy_absString (h.isDir sys.cwd_isDir)

theorem TidyNames.canonical (h : TidyNames sys home) (hpath : Tidy path) (strict : Bool) :
    Tidy (canonical sys path strict) := by
  have hreal : Tidy (sys.realPath path) := by
    rw [System.realPath]
    split
    · rename_i spot hstat
      exact h.stands (System.stat_stands hstat)
    · exact tidy_nil
  rw [Ffilesystem.canonical]
  split
  · exact tidy_nil
  · split
    · exact hreal
    · split
      · exact tidy_normal hpath
      · exact tidy_nil

theorem TidyNames.absoluteFrom (h : TidyNames sys home) (hpath : Tidy path) :
    Tidy (absoluteFrom sys.getCwd path) := by
  rw [Ffilesystem.absoluteFrom]
  split
  · exact h.cwd
  · split
    · exact hpath
    · split
      · exact tidy_nil
      · exact h.cwd.append (Tidy.append (by decide : Tidy ['/']) hpath)

theorem TidyNames.absoluteBase (h : TidyNames sys home) (hpath : Tidy path)
    (hother : Tidy other) : Tidy (absoluteBase sys.getCwd path other) := by
  have hbase := h.absoluteFrom hother
  rw [Ffilesystem.absoluteBase]
  split
  · exact hpath
  · dsimp only
    split
    · exact tidy_nil
    · split
      · exact hbase
      · refine Tidy.append ?_ hpath
        split
        · exact hbase.append (by decide)
        · exact hbase

theorem TidyNames.expanduser (h : TidyNames sys home) (hpath : Tidy path) :
    Tidy (expanduser .posix home path) := by
  have hpush : Tidy (pushSeparator .posix (getHomedir .posix home)) := by
    rw [pushSeparator]
    split
    · exact h.home
    · exact h.home.append (by decide)
  rw [Ffilesystem.expanduser]
  split
  · exact tidy_nil
  · split
    · exact hpath
    · split
      · exact hpath
      · dsimp only
        split
        · exact h.home
        · split
          · exact hpush.append (hpath.of_suffix (List.drop_suffix _ _))
          · exact hpush

theorem TidyNames.unary (h : TidyNames sys home) (f : Unary) (hpath : Tidy path) :
    Tidy (f.apply sys home path) := by
  cases f with
  | normal => exact tidy_normal hpath
  | parent => exact tidy_parent hpath
  | fileName => exact tidy_fileName hpath
  | stem => exact tidy_stem hpath
  | suffix => exact tidy_suffix hpath
  | root => exact Tidy.append tidy_nil (tidy_rootDirectory path)
  | rootDirectory => exact tidy_rootDirectory path
  | rootName => exact tidy_nil
  | expanduser => exact h.expanduser hpath
  | canonical strict => exact h.canonical hpath strict
  | resolve strict => exact h.canonical (h.absoluteFrom hpath) strict

theorem TidyNames.binary (h : TidyNames sys home) (f : Binary) (hpath : Tidy path)
    (hother : Tidy other) : Tidy (f.apply sys path other) := by
  cases f with
  | join => exact tidy_join hpath hother
  | withSuffix => exact tidy_withSuffix hpath hother
  | absolute => exact h.absoluteBase hpath hother

end Environment

namespace PathExpr

variable {sys : System} {home : HomeEnv} {size : Nat} {cbufs : List Bool → Buffer size}
  {site : List Bool}

theorem tidy_eval (h : TidyNames sys home) {e : PathExpr} (htexts : e.Texts Tidy) :
    Tidy (e.eval sys home) := by
  induction e with
  | text s blanks => exact htexts
  | unary f e ih => exact h.unary f (ih htexts)
  | binary f a b iha ihb => exact h.binary f (iha htexts.1) (ihb htexts.2)

/-- A call of which the arguments are right gives the result, or nothing where there
is no room for it. -/
theorem evalFortran_unary (h : TidyNames sys home) {f : Unary} {e : PathExpr}
    (htexts : e.Texts Tidy)
    (heq : e.evalFortran sys home cbufs (false :: site) =
      e.eval sys home ++ List.replicate e.blanks ' ') :
    (unary f e).evalFortran sys home cbufs site =
      if ((unary f e).eval sys home).length < size then (unary f e).eval sys home else [] := by
  have harg := tidy_eval h htexts
  rw [evalFortran, unary_fortran_eq, heq, harg.trimBlanks_append, harg.cStr_eq, (cbufs site).2]
  rfl

theorem evalFortran_binary (h : TidyNames sys home) {f : Binary} {a b : PathExpr}
    (htexts : (binary f a b).Texts Tidy)
    (hleft : a.evalFortran sys home cbufs (false :: site) =
      a.eval sys home ++ List.replicate a.blanks ' ')
    (hright : b.evalFortran sys home cbufs (true :: site) =
      b.eval sys home ++ List.replicate b.blanks ' ') :
    (binary f a b).evalFortran sys home cbufs site =
      if ((binary f a b).eval sys home).length < size then (binary f a b).eval sys home
      else [] := by
  have hfirst := tidy_eval h htexts.1
  have hsecond := tidy_eval h htexts.2
  rw [evalFortran, binary_fortran_eq, hleft, hright, hfirst.trimBlanks_append,
    hsecond.trimBlanks_append, hfirst.cStr_eq, hsecond.cStr_eq, (cbufs site).2]
  rfl

/-- A nest of calls has the value in Fortran that it has in C++, whatever was in the
buffers. Only a character variable by itself has blanks behind it. -/
theorem evalFortran_eq (h : TidyNames sys home) {e : PathExpr} (htexts : e.Texts Tidy)
    (hroom : e.HasRoom sys home size) :
    e.evalFortran sys home cbufs site = e.eval sys home ++ List.replicate e.blanks ' ' := by
  induction e generalizing site with
  | text s blanks => rfl
  | unary f e ih =>
      obtain ⟨hrest, hfits⟩ := hroom
      rw [evalFortran_unary (e := e) h htexts (ih htexts hrest), if_pos hfits]
      exact (List.append_nil _).symm
  | binary f a b iha ihb =>
      obtain ⟨hresta, hrestb, hfits⟩ := hroom
      rw [evalFortran_binary h htexts (iha htexts.1 hresta) (ihb htexts.2 hrestb), if_pos hfits]
      exact (List.append_nil _).symm

/-- A directory and a stem with a blank in it, both from padded variables. -/
def joinedStem : PathExpr :=
  binary .join (unary .parent (text "d/my f.txt".toList 6))
    (unary .stem (text "d/my f.txt".toList 6))

theorem evalFortran_joinedStem :
    joinedStem.evalFortran linkedDir ⟨fun _ => none, []⟩
      (fun site => ⟨List.replicate 9 (if site = [] then 'x' else '/'), List.length_replicate⟩) [] =
      "d/my f".toList := by
  have htext : Tidy "d/my f.txt".toList := by decide
  exact evalFortran_eq (e := joinedStem) ⟨by decide, by decide⟩ ⟨htext, htext⟩
    ⟨⟨trivial, by decide⟩, ⟨trivial, by decide⟩, by decide⟩

end PathExpr

section Buffers

variable {path result : Str} {size : Nat}

/-- The other function of the C interface that fills a buffer, for any C string.
`strncpy` fills it up with null characters. -/
def fsStrncpy (path result : Str) (bufferSize : Nat) : Nat × Str :=
  let L := (cStr path).length
  if L ≥ bufferSize then (0, result)
  else if L = 0 then (L, result)
  else (L, cStr path ++ List.replicate (bufferSize - L) '\x00' ++ result.drop bufferSize)

/-- Nothing is written behind the first `size` characters. -/
structure WrittenWithin (size : Nat) (result out : Str) : Prop where
  length_eq : out.length = result.length
  drop_eq : out.drop size = result.drop size

theorem WrittenWithin.refl (size : Nat) (result : Str) : WrittenWithin size result result :=
  ⟨rfl, rfl⟩

/-- A text that covers the first `n` characters. -/
theorem writtenWithin_append {text : Str} {n : Nat} (htext : text.length = n) (hn : n ≤ size)
    (hsize : size ≤ result.length) : WrittenWithin size result (text ++ result.drop n) := by
  refine ⟨?_, ?_⟩
  · rw [List.length_append, List.length_drop]
    omega
  · rw [List.drop_append, List.drop_eq_nil_of_le (by omega), List.nil_append, List.drop_drop]
    congr 1
    omega

theorem cStr_append_cons_nul {s : Str} (h : '\x00' ∉ s) (rest : Str) :
    cStr (s ++ '\x00' :: rest) = s := by
  rw [cStr_append_of_not_mem h, cStr_cons_nul, List.append_nil]

/-- The two functions that fill a buffer return the same, and neither writes behind its
end. A text that fits is there as a C string afterwards, except that `fs_strncpy` leaves
in the buffer what it held when the text is empty. -/
theorem fsStrncpy_fsStr2char (path : Str) (hsize : size ≤ result.length) :
    (fsStrncpy path result size).1 = (fsStr2char (cStr path) result size).1 ∧
      WrittenWithin size result (fsStrncpy path result size).2 ∧
      WrittenWithin size result (fsStr2char (cStr path) result size).2 ∧
      ((cStr path).length < size →
        cStr (fsStr2char (cStr path) result size).2 = cStr path ∧
          (cStr (fsStrncpy path result size).2 = cStr path ↔
            (cStr path = [] → cStr result = []))) := by
  have hnul := nul_not_mem_cStr path
  by_cases hlong : (cStr path).length ≥ size
  · have hcopy : fsStrncpy path result size = (0, result) := if_pos hlong
    have hchar : fsStr2char (cStr path) result size = (0, result) := if_pos hlong
    rw [hcopy, hchar]
    exact ⟨rfl, .refl size result, .refl size result, fun hfits => by omega⟩
  have hchar : fsStr2char (cStr path) result size =
      ((cStr path).length, cStr path ++ '\x00' :: result.drop ((cStr path).length + 1)) :=
    if_neg hlong
  have hwritten : WrittenWithin size result
      (cStr path ++ '\x00' :: result.drop ((cStr path).length + 1)) := by
    rw [List.append_cons]
    exact writtenWithin_append (by simp) (by omega) hsize
  by_cases hnil : cStr path = []
  · -- nothing is copied, and no terminator written
    have hcopy : fsStrncpy path result size = (0, result) := by
      rw [fsStrncpy, if_neg hlong, hnil]
      rfl
    rw [hcopy, hchar]
    refine ⟨by rw [hnil]; rfl, .refl size result, hwritten, fun _ => ?_⟩
    refine ⟨cStr_append_cons_nul hnul _, ?_⟩
    rw [hnil]
    exact ⟨fun h _ => h, fun h => h rfl⟩
  · have hzero : ¬ (cStr path).length = 0 := fun hlen => hnil (List.length_eq_zero_iff.mp hlen)
    obtain ⟨k, hk⟩ := Nat.exists_eq_add_of_lt (Nat.not_le.mp hlong)
    have hcopy : fsStrncpy path result size = ((cStr path).length,
        cStr path ++ List.replicate (size - (cStr path).length) '\x00' ++ result.drop size) := by
      rw [fsStrncpy, if_neg hlong, if_neg hzero]
    have hfill : List.replicate (size - (cStr path).length) '\x00' =
        '\x00' :: List.replicate k '\x00' := by
      rw [show size - (cStr path).length = k + 1 by omega, List.replicate_succ]
    rw [hcopy, hchar]
    refine ⟨rfl, ?_, hwritten, fun _ => ⟨cStr_append_cons_nul hnul _, ?_⟩⟩
    · refine writtenWithin_append ?_ (Nat.le_refl size) hsize
      rw [List.length_append, List.length_replicate]
      omega
    · rw [hfill, List.append_assoc, List.cons_append, cStr_append_cons_nul hnul]
      exact iff_of_true rfl fun h => absurd h hnil

/-- An empty text leaves a name in the buffer. -/
theorem fsStrncpy_stale :
    fsStrncpy [] "ab\x00".toList 3 = (0, "ab\x00".toList) ∧
      (cStr (fsStrncpy [] "ab\x00".toList 3).2 = cStr [] ↔
        (cStr [] = [] → cStr "ab\x00".toList = [])) :=
  ⟨by decide, ((fsStrncpy_fsStr2char [] (by decide)).2.2.2 (by decide)).2⟩

end Buffers

section Separators

variable {old : Char} {r : Str}

/-- The position that is found, and the two parts of the text around it. -/
theorem exists_of_find (new : Char) {i : Nat} (h : Scan.find r old 0 = some i) :
    ∃ front back, r = front ++ old :: back ∧ r.set i new = front ++ new :: back := by
  obtain ⟨-, hlt, -, hcut⟩ := Scan.find_eq_some h
  rw [List.drop_zero, Scan.substr, List.drop_zero, Nat.sub_zero] at hcut
  refine ⟨r.take i, r.drop (i + 1), hcut, ?_⟩
  rw [List.set_eq_take_append_cons_drop, if_pos hlt]

/-- The loop of the Fortran functions `as_posix` and `as_windows`: the first `old` is
overwritten until there is none. -/
def overwriteEach (old new : Char) (hne : new ≠ old) (r : Str) : Str :=
  match _hfind : Scan.find r old 0 with
  | none => r
  | some i => overwriteEach old new hne (r.set i new)
termination_by r.count old
decreasing_by
  obtain ⟨front, back, hr, hset⟩ := exists_of_find new _hfind
  rw [hset, hr, List.count_append, List.count_append, List.count_cons_self,
    List.count_cons_of_ne hne]
  omega

/-- The loop does what one pass over the text does. -/
theorem overwriteEach_eq_map {new : Char} (hne : new ≠ old) (r : Str) :
    overwriteEach old new hne r = r.map fun c => if c = old then new else c := by
  induction r using overwriteEach.induct old new hne with
  | case1 r hfind =>
      have hfree : old ∉ r := by simpa using Scan.find_eq_none_iff.mp hfind
      have hkept : (r.map fun c => if c = old then new else c) = r.map id :=
        List.map_congr_left fun c hc => if_neg fun heq : c = old => hfree (heq ▸ hc)
      rw [hkept, List.map_id, overwriteEach]
      split
      · rfl
      · rename_i i hsome
        rw [hfind] at hsome
        cases hsome
  | case2 r i hfind ih =>
      obtain ⟨front, back, hr, hset⟩ := exists_of_find new hfind
      rw [overwriteEach]
      split
      · rename_i hnone
        rw [hfind] at hnone
        cases hnone
      · rename_i j hsome
        obtain rfl : i = j := Option.some.inj (hfind.symm.trans hsome)
        rw [ih, hset, hr, List.map_append, List.map_append, List.map_cons, List.map_cons,
          if_neg hne, if_pos rfl]

end Separators

/-- The Fortran functions. Neither calls C++, where one pass replaces separators. -/
def asPosixFortran (pl : Platform) (path : Str) : Str :=
  if pl.isWindows then overwriteEach '\\' '/' (by decide) path else path

def asWindowsFortran (pl : Platform) (path : Str) : Str :=
  if pl.isWindows then overwriteEach '/' '\\' (by decide) path else path

/-- The loops end, and give what the one pass of C++ gives of the same text, behind
which they leave the blanks of the variable. -/
theorem asPosixFortran_asWindowsFortran (pl : Platform) (s : Str) (blanks : Nat) :
    asPosixFortran pl (s ++ List.replicate blanks ' ') =
        asPosix pl s ++ List.replicate blanks ' ' ∧
      asWindowsFortran pl (s ++ List.replicate blanks ' ') =
        asWindows pl s ++ List.replicate blanks ' ' := by
  cases pl with
  | posix => exact ⟨rfl, rfl⟩
  | windows =>
      have hblanks : ∀ old new : Char, ' ' ≠ old → (List.replicate blanks ' ').map
          (fun c => if c = old then new else c) = List.replicate blanks ' ' := by
        intro old new hne
        rw [List.map_replicate, if_neg hne]
      refine ⟨?_, ?_⟩
      · show overwriteEach '\\' '/' _ _ = _
        rw [overwriteEach_eq_map, List.map_append, hblanks _ _ (by decide)]
        rfl
      · show overwriteEach '/' '\\' _ _ = _
        rw [overwriteEach_eq_map, List.map_append, hblanks _ _ (by decide)]
        rfl

end Ffilesystem
