import SettingsTree.Config.Emission
import SettingsTree.Json.Failure
import SettingsTree.Number.Layout
import SettingsTree.Text.Quoted

/-!
# Configurations as compact JSON text

An absent value and a unit are `null`, a present optional value and a named one
are what they hold, a character is a text, and bytes are a list of numbers.
Members of an object stand in the order in which the configuration emits them.
Keys are texts: characters, numbers and truth values are quoted, and other keys
are refused. Between the quotes only what JSON requires is escaped.
-/
namespace SettingsTree.Json

/-- Numbers in JSON are positional while the leading digit stands between the given
powers of ten, and every exponent has a sign; what is no finite number is written as
`null`. -/
def layout (least greatest : Int) : Binary.Layout where
  positional leading := least ≤ leading ∧ leading ≤ greatest
  plus := true
  tie := .even
  nan := "null"
  infinity := "null"
  signedInfinity := false

/-- Small floating-point numbers change to an exponent sooner above one and later below. -/
def layoutOf : FloatKind → Binary.Layout
  | .f32 => layout (-6) 12
  | .f64 => layout (-5) 15

def number (x : SizedFloat) : String :=
  (layoutOf x.kind).write x.kind.format x.bits

def escape (c : Char) : String :=
  if c = '"' then "\\\""
  else if c = '\\' then "\\\\"
  else if c = '\x08' then "\\b"
  else if c = '\x0c' then "\\f"
  else if c = '\n' then "\\n"
  else if c = '\r' then "\\r"
  else if c = '\t' then "\\t"
  else if c.toNat < 0x20 then
    "\\u00" ++ (if c.toNat < 0x10 then "0" else "") ++ Text.hexDigits c.toNat
  else c.toString

def quoted (text : String) : String :=
  "\"" ++ String.join (text.toList.map escape) ++ "\""

def array (items : List String) : String :=
  "[" ++ ",".intercalate items ++ "]"

def object (members : List (String × String)) : String :=
  "\x7b" ++ ",".intercalate (members.map fun (key, text) => key ++ ":" ++ text) ++ "\x7d"

def key : Value → Except Failure String
  | .bool b => .ok (quoted (if b then "true" else "false"))
  | .int n => .ok (quoted (toString n.val))
  | .float x =>
      if x.magnitude < x.kind.format.infinity then .ok (quoted (number x))
      else .error .keyNotFinite
  | .char c => .ok (quoted c.toString)
  | .str text => .ok (quoted text)
  | .just inner | .newtype inner => key inner
  | _ => .error .keyNotText

mutual

def value : Value → Except Failure String
  | .bool b => .ok (if b then "true" else "false")
  | .int n => .ok (toString n.val)
  | .float x => .ok (number x)
  | .char c => .ok (quoted c.toString)
  | .str text => .ok (quoted text)
  | .unit | .nothing => .ok "null"
  | .just inner | .newtype inner => value inner
  | .seq xs => (items xs).map array
  | .map entries => (members entries).map object
  | .bytes octets => .ok (array (octets.map fun o => toString o.toNat))

def items : List Value → Except Failure (List String)
  | [] => .ok []
  | item :: rest =>
      match value item with
      | .error failure => .error failure
      | .ok text => (items rest).map (text :: ·)

def members : List (Value × Value) → Except Failure (List (String × String))
  | [] => .ok []
  | (k, v) :: rest =>
      match key k, value v with
      | .error failure, _ => .error failure
      | _, .error failure => .error failure
      | .ok name, .ok text => (members rest).map ((name, text) :: ·)

end

def settings : List (String × Except Fault Value) → Except Failure (List (String × String))
  | [] => .ok []
  | (_, .error fault) :: _ => .error (.setting fault)
  | (name, .ok v) :: rest =>
      match value v with
      | .error failure => .error failure
      | .ok text => (settings rest).map ((quoted name, text) :: ·)

mutual

def emission : Emission → Except Failure String
  | .mk plain groups =>
      match settings plain with
      | .error failure => .error failure
      | .ok first => (sections groups).map fun second => object (first ++ second)

def sections : List (String × Emission) → Except Failure (List (String × String))
  | [] => .ok []
  | (name, inner) :: rest =>
      match emission inner with
      | .error failure => .error failure
      | .ok text => (sections rest).map ((quoted name, text) :: ·)

end

end SettingsTree.Json

namespace SettingsTree

/-- The configuration as compact JSON text. -/
def Config.toJson (c : Config) : Except Json.Failure String :=
  Json.emission c.emission

end SettingsTree
