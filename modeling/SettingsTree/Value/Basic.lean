import SettingsTree.Number.Sized
import SettingsTree.Number.Floating

/-!
# Values of settings

A setting holds a value of one of twelve forms. Integers and floating-point
numbers carry their size, so `1` as a small integer and `1` as a large one are
different values. The entries of a map are listed in ascending order of their
keys; `Value.ofPairs` (beside the order of values) builds such lists.
-/
namespace SettingsTree

/-- What a setting can hold. -/
inductive Value where
  | bool (b : Bool)
  | int (n : SizedInt)
  | float (x : SizedFloat)
  | char (c : Char)
  | str (text : String)
  | unit
  /-- An optional value that is absent. -/
  | nothing
  /-- An optional value that is present. -/
  | just (inner : Value)
  /-- A value under a name of its own that carries nothing else. -/
  | newtype (inner : Value)
  | seq (items : List Value)
  /-- Keys are values too, and need not be text. -/
  | map (entries : List (Value × Value))
  | bytes (octets : List UInt8)

instance : Inhabited Value := ⟨.unit⟩

namespace Value

/-- The value of a setting that has neither been given one nor has a default. -/
def null : Value := .nothing

/-- Whether a value counts as absent when settings are written out. -/
def isNull : Value → Bool
  | .nothing | .unit => true
  | _ => false

end Value
end SettingsTree
