import Lorelei.Support.StringExtras

/-!
# Paths

The operations of `std::filesystem::path` that the code uses, on the text of a POSIX
path.
-/

namespace Lorelei.Support

/-- `path::filename`. -/
def filename (p : Str) : Str := p.rtakeWhile (· ≠ '/')

/-- `path::parent_path`.  A path of slashes alone is its own parent. -/
def parentPath (p : Str) : Str :=
  if p.all (· = '/') then p
  else
    let dir := p.rdropWhile (· ≠ '/')
    let stripped := dir.rdropWhile (· = '/')
    if dir ≠ [] ∧ stripped = [] then ['/'] else stripped

/-- `path::operator/`.  An absolute right operand replaces the left one. -/
def joinPath (p q : Str) : Str :=
  if q.head? = some '/' then q
  else if filename p = [] then p ++ q
  else p ++ '/' :: q

example : parentPath "/opt//thunks/lib.so".toList = "/opt//thunks".toList := by decide

/-- The file names of a normal form, last first, and whether a separator follows them. -/
structure NormalForm where
  names : List Str
  trailing : Bool
deriving DecidableEq, Repr

/-- One more component.  A dot, or nothing between two separators, leaves a separator
behind; a dot-dot takes the file name before it away, or is dropped after the root. -/
def NormalForm.push (absolute : Bool) (n : NormalForm) (component : Str) : NormalForm :=
  if component = [] ∨ component = ['.'] then { n with trailing := n.names ≠ [] }
  else if component = ['.', '.'] then
    match n.names with
    | [] => if absolute then n else ⟨[component], false⟩
    | name :: names =>
        if name = ['.', '.'] then ⟨component :: n.names, false⟩ else ⟨names, names ≠ []⟩
  else ⟨component :: n.names, false⟩

/-- `path::lexically_normal`. -/
def lexicallyNormal (p : Str) : Str :=
  if p = [] then []
  else
    let absolute := p.head? = some '/'
    let n := (str.split p ['/']).foldl (NormalForm.push absolute) ⟨[], false⟩
    let root := if absolute then ['/'] else []
    let trailing := if n.trailing ∧ n.names.head? ≠ some ['.', '.'] then ['/'] else []
    let normal := root ++ ['/'].intercalate n.names.reverse ++ trailing
    if normal = [] then ['.'] else normal

example : lexicallyNormal "/p/x/..".toList = "/p/".toList := by decide

end Lorelei.Support
