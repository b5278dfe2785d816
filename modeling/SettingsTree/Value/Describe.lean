import SettingsTree.Value.Basic
import SettingsTree.Number.Layout
import SettingsTree.Text.Quoted

/-!
# Values in messages

Messages name the form of a value and show what it holds, in the same way at
every depth.
-/
namespace SettingsTree

/-- In messages a number from a ten-thousandth up to ten to the sixteenth is
positional; every other one has an exponent. -/
def Binary.Layout.message : Binary.Layout where
  positional leading := -4 ≤ leading ∧ leading < 16
  plus := false
  tie := .up
  nan := "NaN"
  infinity := "inf"
  signedInfinity := true

namespace IntKind

/-- The name of a kind in messages. -/
def label : IntKind → String
  | u8 => "U8" | u16 => "U16" | u32 => "U32" | u64 => "U64"
  | i8 => "I8" | i16 => "I16" | i32 => "I32" | i64 => "I64"

end IntKind

namespace FloatKind

def label : FloatKind → String
  | f32 => "F32" | f64 => "F64"

end FloatKind

namespace Value

/-- A name with what it holds in parentheses. -/
def labelled (name inner : String) : String :=
  name ++ "(" ++ inner ++ ")"

mutual

def describe : Value → String
  | .bool b => labelled "Bool" (if b then "true" else "false")
  | .int n => labelled n.kind.label (toString n.val)
  | .float x => labelled x.kind.label (Binary.Layout.message.write x.kind.format x.bits)
  | .char c => labelled "Char" (Text.quotedChar c)
  | .str text => labelled "String" (Text.quoted text)
  | .unit => "Unit"
  | .nothing => labelled "Option" "None"
  | .just inner => labelled "Option" (labelled "Some" (describe inner))
  | .newtype inner => labelled "Newtype" (describe inner)
  | .seq items => labelled "Seq" ("[" ++ ", ".intercalate (describeItems items) ++ "]")
  | .map entries => labelled "Map" ("\x7b" ++ ", ".intercalate (describeEntries entries) ++ "\x7d")
  | .bytes octets =>
      labelled "Bytes" ("[" ++ ", ".intercalate (octets.map fun o => toString o.toNat) ++ "]")

def describeItems : List Value → List String
  | [] => []
  | item :: rest => describe item :: describeItems rest

def describeEntries : List (Value × Value) → List String
  | [] => []
  | (key, value) :: rest => (describe key ++ ": " ++ describe value) :: describeEntries rest

end

def describe? : Option Value → String
  | none => "None"
  | some value => labelled "Some" value.describe

end Value
end SettingsTree
