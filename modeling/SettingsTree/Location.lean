import SettingsTree.Text.Segments

/-!
# Where a path leads in a directory of files

A path has steps with slashes between them. Empty steps and lone dots lead
nowhere, and there are no directories inside, so a path leads to a file only by
a single other step. What stands behind that step, a slash or a lone dot, asks
for a directory; there is no file then, but the step still has a name from which
other names can be made.
-/
namespace SettingsTree

/-- The one step of a path that leads somewhere. -/
structure Location where
  name : String
  /-- Whether the path ends with the name, as the path of a file must. -/
  ends : Bool
deriving DecidableEq, Repr

/-- The most bytes that the name of a file can have. -/
def longestFileName : Nat := 255

/-- Whether a step can be the name of a file. -/
def isFileName (name : String) : Bool :=
  name != ".." && !name.toList.contains '\x00' && decide (name.utf8ByteSize ≤ longestFileName)

namespace Location

/-- The step of a path that leads somewhere, if there is exactly one. A path that
starts with a slash leaves the directory. -/
def ofPath? (path : String) : Option Location :=
  let (first, others) := Text.cut '/' path.toList
  if first.isEmpty && !others.isEmpty then none
  else
    match (first :: others).filter fun step => !step.isEmpty && step != ['.'] with
    | [name] => some ⟨String.ofList name, (others.getLast?.getD first) == name⟩
    | _ => none

def file? (l : Location) : Option String :=
  if l.ends && isFileName l.name then some l.name else none

/-- Characters up to the last dot, if there is one. -/
def beforeLastDot (chars : List Char) : Option (List Char) :=
  match chars.reverse.dropWhile (· != '.') with
  | [] => none
  | _ :: stem => some stem.reverse

/-- A name without its extension. A dot at the start does not begin one. -/
def stem (name : String) : String :=
  match beforeLastDot name.toList with
  | none | some [] => name
  | some chars => String.ofList chars

/-- The file next to a location whose name has the extension `tmp` in the place of its
own. A path that ends with a name like `..a` has none: up to its extension it leads
out of the directory. -/
def temporary? (l : Location) : Option String :=
  if l.name = ".." ∨ (l.ends ∧ stem l.name = ".") then none
  else
    let name := stem l.name ++ ".tmp"
    if isFileName name then some name else none

end Location
end SettingsTree
