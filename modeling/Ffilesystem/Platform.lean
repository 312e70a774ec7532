/-!
# Strings, platforms, and separators

A `std::string` is a list of `char`; each `char` is represented by the `Char`
with its code. Everything here inspects single characters only, so nothing
depends on how text is encoded.

The compile-time constants of the header are functions of the platform. The
two backends are the C one and the one that defers to `<filesystem>`.
-/

namespace Ffilesystem

/-- The contents of a `std::string` or of a `std::string_view`. -/
abbrev Str := List Char

inductive Platform
  | posix
  | windows
  deriving DecidableEq, Repr

/-- Whether `HAVE_CXX_FILESYSTEM` is defined. -/
inductive Backend
  | c
  | cxxFilesystem
  deriving DecidableEq, Repr

namespace Platform

def isWindows : Platform → Bool
  | posix => false
  | windows => true

def fileSeparator (pl : Platform) : Char := if pl.isWindows then '\\' else '/'

def isFileSeparator (pl : Platform) (c : Char) : Bool := c == '/' || c == pl.fileSeparator

def pathSeparator (pl : Platform) : Char := if pl.isWindows then ';' else ':'

@[simp] theorem isWindows_posix : posix.isWindows = false := rfl
@[simp] theorem fileSeparator_posix : posix.fileSeparator = '/' := rfl
@[simp] theorem pathSeparator_posix : posix.pathSeparator = ':' := rfl

@[simp] theorem isFileSeparator_posix (c : Char) :
    posix.isFileSeparator c = (c == '/') := by
  simp [isFileSeparator]

theorem any_isFileSeparator_posix (c : Option Char) :
    c.any posix.isFileSeparator = decide (c = some '/') := by
  cases c with
  | none => rfl
  | some c => exact Bool.eq_iff_iff.mpr (by simp)

end Platform

def asPosix (pl : Platform) (path : Str) : Str :=
  if pl.isWindows then path.map (fun c => if c = pl.fileSeparator then '/' else c) else path

@[simp] theorem asPosix_posix (path : Str) : asPosix .posix path = path := rfl

def asWindows (pl : Platform) (path : Str) : Str :=
  if pl.isWindows then path.map fun c => if c = '/' then pl.fileSeparator else c else path

end Ffilesystem
