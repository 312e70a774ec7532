import Mathlib.Data.List.DropRight
import Ffilesystem.Normalize

/-!
# The parent of a path on POSIX systems

The C backend calls `dirname`, which reads its argument up to the first null
character. The other backend takes `parent_path` of the path without its
trailing slashes. Both answer `"."` for a path without a directory part.
-/

namespace Ffilesystem

/-- The string a C function sees when it is handed `data()` or `c_str()`. -/
def cStr (s : Str) : Str := s.takeWhile (· ≠ '\x00')

@[simp] theorem cStr_nil : cStr [] = [] := rfl

@[simp] theorem cStr_cons_nul (s : Str) : cStr ('\x00' :: s) = [] := rfl

theorem cStr_cons_of_ne {c : Char} (h : c ≠ '\x00') (s : Str) : cStr (c :: s) = c :: cStr s :=
  List.takeWhile_cons_of_pos (decide_eq_true h)

theorem cStr_append_of_not_mem {a : Str} (h : '\x00' ∉ a) (b : Str) :
    cStr (a ++ b) = a ++ cStr b := by
  induction a with
  | nil => rfl
  | cons c a ih =>
      have hc : c ≠ '\x00' := fun heq => h (heq ▸ List.mem_cons_self)
      rw [List.cons_append, cStr_cons_of_ne hc, ih (fun hmem => h (List.mem_cons_of_mem _ hmem)),
        List.cons_append]

/-- Nothing behind a null character is seen. -/
theorem cStr_append_of_mem {a : Str} (h : '\x00' ∈ a) (b : Str) : cStr (a ++ b) = cStr a := by
  induction a with
  | nil => cases h
  | cons c a ih =>
      by_cases hc : c = '\x00'
      · rw [hc]
        rfl
      · have hmem : '\x00' ∈ a := (List.mem_cons.mp h).resolve_left (fun heq => hc heq.symm)
        rw [List.cons_append, cStr_cons_of_ne hc, cStr_cons_of_ne hc, ih hmem]

theorem cStr_of_not_mem {s : Str} (h : '\x00' ∉ s) : cStr s = s := by
  simpa using cStr_append_of_not_mem h []

theorem nul_not_mem_cStr (s : Str) : '\x00' ∉ cStr s := by
  intro hmem
  rw [cStr] at hmem
  have hne := List.mem_takeWhile_imp hmem
  exact of_decide_eq_true hne rfl

def dropTrailingSlash (p : Str) : Str :=
  match p with
  | [] => []
  | c :: rest => c :: rest.rdropWhile (· = '/')

/-- The part of a path up to and including its last slash. -/
def upToLastSlash (p : Str) : Str := p.rdropWhile (· ≠ '/')

/-- `dirname` of the C library. Slashes at the end are looked past, and two
slashes alone in front are kept as two. -/
def dirname (path : Str) : Str :=
  let trimmed := path.rdropWhile (· = '/')
  let front := upToLastSlash (if trimmed = [] then path else trimmed)
  if front = [] then dot
  else if front.rdropWhile (· = '/') = [] then
    if front = ['/', '/'] then front else ['/']
  else front.rdropWhile (· = '/')

/-- `std::filesystem::path::parent_path` of a path with no trailing slash. -/
def parentPath (path : Str) : Str :=
  let front := upToLastSlash path
  if front = [] then []
  else if front.rdropWhile (· = '/') = [] then ['/']
  else front.rdropWhile (· = '/')

def parent (b : Backend) (path : Str) : Str :=
  match b with
  | .c => dirname (cStr path)
  | .cxxFilesystem =>
      let p := parentPath (dropTrailingSlash path)
      if p = [] then dot else p

theorem upToLastSlash_of_not_mem {p : Str} (h : '/' ∉ p) : upToLastSlash p = [] := by
  rw [upToLastSlash, List.rdropWhile_eq_nil_iff]
  intro c hc
  exact decide_eq_true (fun heq => h (heq ▸ hc))

theorem rdropWhile_slash_of_not_mem {p : Str} (h : '/' ∉ p) :
    p.rdropWhile (· = '/') = p := by
  rw [List.rdropWhile_eq_self_iff]
  intro hne hlast
  exact h (of_decide_eq_true hlast ▸ List.getLast_mem hne)

theorem dropTrailingSlash_of_not_mem {p : Str} (h : '/' ∉ p) : dropTrailingSlash p = p := by
  cases p with
  | nil => rfl
  | cons c rest =>
      have hrest : '/' ∉ rest := fun hmem => h (List.mem_cons_of_mem _ hmem)
      rw [dropTrailingSlash, rdropWhile_slash_of_not_mem hrest]

/-- A name without a slash has the current directory as its parent. -/
theorem parent_of_not_mem_slash (b : Backend) {name : Str} (h : '/' ∉ name) :
    parent b name = dot := by
  cases b with
  | c =>
      have hc : '/' ∉ cStr name := fun hmem => h ((List.takeWhile_subset _) hmem)
      have hfront : upToLastSlash (if (cStr name).rdropWhile (· = '/') = [] then cStr name
          else (cStr name).rdropWhile (· = '/')) = [] := by
        rw [rdropWhile_slash_of_not_mem hc, ite_self, upToLastSlash_of_not_mem hc]
      exact if_pos hfront
  | cxxFilesystem =>
      have hfront : parentPath (dropTrailingSlash name) = [] := by
        rw [dropTrailingSlash_of_not_mem h]
        exact if_pos (upToLastSlash_of_not_mem h)
      exact if_pos hfront

theorem dirname_ne_nil (path : Str) : dirname path ≠ [] := by
  have hfront : ∀ front : Str,
      (if front = [] then dot
        else if front.rdropWhile (· = '/') = [] then
          if front = ['/', '/'] then front else ['/']
        else front.rdropWhile (· = '/')) ≠ [] := by
    intro front
    by_cases h : front = []
    · rw [if_pos h]
      exact List.cons_ne_nil _ _
    · rw [if_neg h]
      split
      · split
        · exact h
        · exact List.cons_ne_nil _ _
      · rename_i hdrop
        exact hdrop
  exact hfront _

/-- A parent is named by something, if only by a dot. -/
theorem parent_ne_nil (b : Backend) (path : Str) : parent b path ≠ [] := by
  cases b with
  | c => exact dirname_ne_nil (cStr path)
  | cxxFilesystem =>
      simp only [parent]
      split
      · exact List.cons_ne_nil _ _
      · rename_i hfront
        exact hfront

example : parent .c "/a//b/".toList = "/a".toList ∧ parent .c "//a".toList = "//".toList := by
  decide

end Ffilesystem
