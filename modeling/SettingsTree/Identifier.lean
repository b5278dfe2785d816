/-!
# Names of settings

A name starts with an ASCII letter or an underscore and goes on with ASCII
letters, digits and underscores. In particular it is not empty and holds no dot,
which is what lets dotted paths address settings without ambiguity.
-/
namespace SettingsTree

def isNameStart (c : Char) : Bool :=
  c.isAlpha || c == '_'

def isNamePart (c : Char) : Bool :=
  c.isAlphanum || c == '_'

def isIdentifier (name : String) : Bool :=
  match name.toList with
  | [] => false
  | first :: rest => isNameStart first && rest.all isNamePart

end SettingsTree
