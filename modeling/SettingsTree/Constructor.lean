import SettingsTree.Value.Basic

/-!
# Constructors of settings

A constructor turns the input of a setting into its value. It is given nothing
when there is neither an assigned value nor a default, and it may refuse its
input with a reason. Constructors are functions in the mathematical sense: the
same input always has the same outcome.
-/
namespace SettingsTree

/-- A function from the input of a setting to its value or to a reason for refusal. -/
structure Constructor where
  run : Option Value → Except String Value
  /-- Whether this is the constructor of a setting declared without one. -/
  isIdentity : Bool := false

namespace Constructor

/-- Keeps its input, and takes the null value for nothing. -/
def identity : Constructor where
  run input := .ok (input.getD Value.null)
  isIdentity := true

def describe (c : Constructor) : String :=
  if c.isIdentity then "Constructor(identity)" else "Constructor(custom)"

end Constructor
end SettingsTree
