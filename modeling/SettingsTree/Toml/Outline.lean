import SettingsTree.Config.Emission
import SettingsTree.Toml.Spelling

/-!
# Outlines of TOML documents

An outline says which values of a configuration stand behind their keys and
which become sections. A map is a section; a sequence of maps, if it is not
empty, is a repeated section; everything else stands behind its key, where maps
are inline tables. Optional and named values are what they hold.

An absent value leaves its key out, in an inline table only if no present value
holds it. Inside a sequence it has no place, and neither has a unit anywhere.
Keys are texts, characters, integers, truth values and named ones of these.
-/
namespace SettingsTree.Toml

/-- What stands under a key. -/
inductive Item where
  /-- The text of a value behind its key. -/
  | plain (text : String)
  | table (entries : List (String × Item))
  /-- Several tables under one key. -/
  | tables (elements : List (List (String × Item)))

/-- The text of a key before it is quoted. -/
def keyText : Value → Except Refusal String
  | .str text => .ok text
  | .char c => .ok c.toString
  | .int n => .ok (toString n.val)
  | .bool b => .ok (if b then "true" else "false")
  | .newtype inner => keyText inner
  | _ => .error .keyNotText

/-- A sequence of texts: in place if there is at most one, and else one on each line. -/
def array : List String → String
  | [] => "[]"
  | [text] => "[" ++ text ++ "]"
  | texts => "[\n" ++ String.join (texts.map fun text => "    " ++ text ++ ",\n") ++ "]"

def inlineTable (entries : List (String × String)) : String :=
  if entries.isEmpty then "\x7b\x7d"
  else
    let texts := entries.map fun (name, text) => key name ++ " = " ++ text
    "\x7b " ++ ", ".intercalate texts ++ " \x7d"

/-- Whether a value leaves out its key in an inline table. A present value does not,
whatever it holds. -/
def leavesOut : Value → Bool
  | .nothing => true
  | .newtype inner => leavesOut inner
  | _ => false

mutual

/-- The text of a value in place. -/
def inPlace : Value → Except Refusal String
  | .bool b => .ok (if b then "true" else "false")
  | .int n => .ok (toString n.val)
  | .float x => .ok (float x)
  | .char c => .ok (string c.toString)
  | .str text => .ok (string text)
  | .unit => .error .unit
  | .nothing => .error .absent
  | .just inner | .newtype inner => inPlace inner
  | .seq xs => (itemsInPlace xs).map array
  | .map entries => (entriesInPlace entries).map inlineTable
  | .bytes octets => .ok (array (octets.map fun o => toString o.toNat))

def itemsInPlace : List Value → Except Refusal (List String)
  | [] => .ok []
  | x :: rest =>
      match inPlace x with
      | .error refusal => .error refusal
      | .ok text => (itemsInPlace rest).map (text :: ·)

def entriesInPlace : List (Value × Value) → Except Refusal (List (String × String))
  | [] => .ok []
  | (k, v) :: rest =>
      match keyText k with
      | .error refusal => .error refusal
      | .ok name =>
          if leavesOut v then entriesInPlace rest
          else
            match inPlace v with
            | .error refusal => .error refusal
            | .ok text => (entriesInPlace rest).map ((name, text) :: ·)

end

def isTable : Value → Bool
  | .map _ => true
  | .just inner | .newtype inner => isTable inner
  | _ => false

mutual

/-- What stands under the key of a value, unless it is absent. -/
def itemOf : Value → Except Refusal (Option Item)
  | .map entries => (itemEntries entries).map fun items => some (.table items)
  | .just inner | .newtype inner => itemOf inner
  | .nothing => .ok none
  | .seq xs =>
      if !xs.isEmpty && xs.all isTable then
        (elements xs).map fun inner => some (.tables inner)
      else (inPlace (.seq xs)).map fun text => some (.plain text)
  | v => (inPlace v).map fun text => some (.plain text)

def itemEntries : List (Value × Value) → Except Refusal (List (String × Item))
  | [] => .ok []
  | (k, v) :: rest =>
      match keyText k with
      | .error refusal => .error refusal
      | .ok name =>
          match itemOf v with
          | .error refusal => .error refusal
          | .ok none => itemEntries rest
          | .ok (some item) => (itemEntries rest).map ((name, item) :: ·)

/-- The entries of a value that is a table, and none of any other value. -/
def tableEntries : Value → Except Refusal (List (String × Item))
  | .map entries => itemEntries entries
  | .just inner | .newtype inner => tableEntries inner
  | _ => .ok []

/-- The entries of each table in a sequence of tables. -/
def elements : List Value → Except Refusal (List (List (String × Item)))
  | [] => .ok []
  | x :: rest =>
      match tableEntries x with
      | .error refusal => .error refusal
      | .ok entries => (elements rest).map (entries :: ·)

end

/-- The items of the single settings of an emission, up to the first that has none. -/
def settings : List (String × Except Fault Value) → Except Fault (List (String × Item))
  | [] => .ok []
  | (_, .error fault) :: _ => .error (.unwritableSetting fault)
  | (name, .ok v) :: rest =>
      match itemOf v with
      | .error refusal => .error (.unwritable refusal)
      | .ok none => settings rest
      | .ok (some item) => (settings rest).map ((name, item) :: ·)

mutual

/-- The items of an emission: its settings, and a section for every group. -/
def outline : Emission → Except Fault (List (String × Item))
  | .mk plain groups =>
      match settings plain with
      | .error fault => .error fault
      | .ok first => (sections groups).map (first ++ ·)

def sections : List (String × Emission) → Except Fault (List (String × Item))
  | [] => .ok []
  | (name, inner) :: rest =>
      match outline inner with
      | .error fault => .error fault
      | .ok items => (sections rest).map ((name, .table items) :: ·)

end

end SettingsTree.Toml
