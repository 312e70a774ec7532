import Ffilesystem.Library.Runs
import Ffilesystem.Normalize

/-!
# The two splitters

`split_filesep` and `split_pathsep` run one loop over their string. Each time
round the loop stands at the front or behind a separator, which is all that is
needed to see that it adds the next maximal run, or nothing at a separator.

With the range adapter of the standard library `split_filesep` takes the pieces
between slashes instead and leaves the empty ones out.
-/

namespace Ffilesystem

/-- The pieces that `std::views::split` yields from a position on. Behind a
separator at the very end one empty piece follows. -/
def viewsSplitFrom (sep : Char) (p : Str) (cur : Nat) : List Str :=
  match _hfind : Scan.find p sep cur with
  | none => [p.drop cur]
  | some i =>
      Scan.substr p cur (i - cur) ::
        if i + 1 < p.length then viewsSplitFrom sep p (i + 1) else [[]]
termination_by p.length - cur
decreasing_by
  have := Scan.le_of_find _hfind
  omega

def viewsSplit (sep : Char) (p : Str) : List Str :=
  if p.isEmpty then [] else viewsSplitFrom sep p 0

/-- `split_filesep` where `HAVE_CPP_RANGES_SPLIT_STRING_VIEW` is defined. -/
def splitFilesepRanges (pl : Platform) (path : Str) : List Str :=
  if path.isEmpty then []
  else (viewsSplit '/' (asPosix pl path)).foldl
    (fun parts part => if part.isEmpty then parts else parts ++ [part]) []

/-- The loop of the splitters, given up after so many tests of its condition. -/
def splitLoopWithin (sep : Char) (p : Str) : Nat → Nat → List Str → Option (List Str)
  | 0, _, _ => none
  | tests + 1, start, parts =>
      if start < p.length then
        match Scan.find p sep start with
        | none => some (parts ++ [p.drop start])
        | some stop =>
            splitLoopWithin sep p tests (stop + 1)
              (if stop ≠ start then parts ++ [Scan.substr p start (stop - start)] else parts)
      else some parts

section Loop

/-- The loop ends, with one test of its condition for each position at most. -/
theorem splitLoopWithin_eq {sep : Char} {p : Str} {tests start : Nat} (parts : List Str)
    (h : p.length - start < tests) :
    splitLoopWithin sep p tests start parts = some (splitLoop sep p start parts) := by
  induction tests generalizing start parts with
  | zero => omega
  | succ tests ih =>
      rw [splitLoopWithin, splitLoop]
      by_cases hlt : start < p.length
      · rw [if_pos hlt, if_pos hlt]
        cases hfind : Scan.find p sep start with
        | none => rfl
        | some stop =>
            have hle := Scan.le_of_find hfind
            exact ih _ (by omega)
      · rw [if_neg hlt, if_neg hlt]

/-- The loop adds the maximal runs that are ahead of it. -/
theorem splitLoop_runs {sep : Char} {p : Str} {start : Nat} (parts : List Str)
    (hopen : Scan.OpensAt sep p start) :
    ∃ spans, Scan.RunsFrom sep p start spans ∧
      splitLoop sep p start parts =
        parts ++ spans.map fun r => Scan.substr p r.1 (r.2 - r.1) := by
  fun_induction splitLoop sep p start parts with
  | case1 start parts hlt hfind =>
      refine ⟨_, Scan.RunsFrom.last hopen hlt hfind, ?_⟩
      rw [List.map_singleton, Scan.substr_to_end]
  | case2 start parts hlt stop hfind ih =>
      obtain ⟨spans, hspans, heq⟩ := ih (.inr (Scan.getElem?_of_find_some hfind))
      refine ⟨_, Scan.RunsFrom.next hopen hfind hspans, ?_⟩
      simp only [dite_eq_ite] at heq
      rw [heq]
      split
      · rw [List.map_cons, List.append_assoc, List.singleton_append]
      · rfl
  | case3 start parts hge =>
      exact ⟨[], Scan.RunsFrom.done (Nat.le_of_not_lt hge), by simp⟩

theorem splitLoop_isRunList (sep : Char) (p : Str) :
    Scan.IsRunList sep p (splitLoop sep p 0 []) := by
  obtain ⟨spans, hspans, heq⟩ := splitLoop_runs [] (.inl rfl : Scan.OpensAt sep p 0)
  exact ⟨spans, hspans, heq⟩

end Loop

section Ranges

theorem viewsSplitFrom_eq (sep : Char) (p : Str) (cur : Nat) :
    viewsSplitFrom sep p cur = (p.drop cur).splitOn sep := by
  fun_induction viewsSplitFrom sep p cur with
  | case1 cur hfind => rw [Scan.splitOn_drop_of_find_none hfind]
  | case2 cur i hfind ih =>
      rw [Scan.splitOn_drop_of_find_some hfind]
      by_cases hlt : i + 1 < p.length
      · rw [if_pos hlt, ih hlt]
      · rw [if_neg hlt, List.drop_of_length_le (Nat.le_of_not_lt hlt), List.splitOn_nil]

theorem foldl_nonempty_parts (pieces parts : List Str) :
    pieces.foldl (fun parts part => if part.isEmpty then parts else parts ++ [part]) parts =
      parts ++ pieces.filter (· ≠ []) := by
  induction pieces generalizing parts with
  | nil => rw [List.foldl_nil, List.filter_nil, List.append_nil]
  | cons piece pieces ih =>
      rw [List.foldl_cons, ih]
      cases piece with
      | nil => rfl
      | cons c piece => simp

theorem splitFilesepRanges_eq (pl : Platform) (path : Str) :
    splitFilesepRanges pl path = splitFilesep pl path := by
  cases path with
  | nil => rfl
  | cons c rest =>
      have hne : (asPosix pl (c :: rest)).isEmpty = false := by
        rw [asPosix]
        split <;> rfl
      rw [splitFilesep_eq, splitFilesepRanges, if_neg (by simp), viewsSplit, hne,
        if_neg Bool.false_ne_true, foldl_nonempty_parts, viewsSplitFrom_eq, List.drop_zero,
        List.nil_append, Scan.components]

end Ranges

/-- The splitters return the maximal runs between separators in order, `split_filesep`
in both of its variants, and their loops end. -/
theorem splitters_isRunList (pl : Platform) (s : Str) :
    Scan.IsRunList pl.pathSeparator s (splitPathsep pl s) ∧
      Scan.IsRunList '/' (asPosix pl s) (splitFilesep pl s) ∧
      splitFilesepRanges pl s = splitFilesep pl s ∧
      splitLoopWithin pl.pathSeparator s (s.length + 1) 0 [] = some (splitPathsep pl s) ∧
      splitLoopWithin '/' (asPosix pl s) (s.length + 1) 0 [] = some (splitFilesep pl s) := by
  have hfilesep : splitFilesep pl s = splitLoop '/' (asPosix pl s) 0 [] := by
    rw [splitFilesep_eq, splitLoop_eq, List.drop_zero, List.nil_append]
  have hlen : (asPosix pl s).length = s.length := by
    rw [asPosix]
    split
    · exact List.length_map _
    · rfl
  refine ⟨splitLoop_isRunList _ _, ?_, splitFilesepRanges_eq pl s, ?_, ?_⟩
  · rw [hfilesep]
    exact splitLoop_isRunList _ _
  · apply splitLoopWithin_eq
    omega
  · rw [hfilesep]
    apply splitLoopWithin_eq
    omega

end Ffilesystem
