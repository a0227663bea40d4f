import Lorelei.Support.Path

/-!
# Thunk names

The name under which a thunk is looked up, from the path of its library.  The buffer that
the base name is copied to holds any file name.
-/

namespace Lorelei.HostRT

open Support

/-- `pathGetName`. -/
def pathGetName (path : Str) : Str := path.rtakeWhile (· ≠ '/')

/-- Whether `.so` stands here, in any case. -/
def isSo (s : Str) : Bool := str.toLower (s.take 3) = ".so".toList

/-- What is in front of the rightmost `.so`. -/
def beforeSo : Str → Option Str
  | [] => none
  | c :: s =>
      match beforeSo s with
      | some name => some (c :: name)
      | none => if isSo (c :: s) then some [] else none

/-- `getLibraryName`. -/
def getLibraryName (path : Str) : Str := (beforeSo (pathGetName path)).getD (pathGetName path)

/-- `thunkNameOf`. -/
def thunkNameOf (path : Str) : Str :=
  let name := getLibraryName path
  if "_HTL".toList <:+ name then name.take (name.length - 4) else name

example : thunkNameOf "/usr/lib/libfoo_HTL.so.1".toList = "libfoo".toList := by decide

end Lorelei.HostRT
