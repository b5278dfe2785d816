import SettingsTree.Value.Order

/-!
# Shapes: the types that values are read as

A shape describes a type. Reading a value as a shape either fails or gives the
value in the form in which that type is stored again: integers and floats in the
size of the shape, records as maps from the names of their fields, and so on.
Optional values and named values are looked through only where the shape says so.

A record is read from a map or from a sequence of its fields in order. The key of
a field is its name, as text, character or bytes, or its place as an unsigned
integer. The same holds for the case of a choice. A sequence may be longer than
the tuple or the record that is read from it, except where it is what a case of a
choice holds.
-/
namespace SettingsTree

/-- What a field is when the value does not have it. -/
inductive Missing where
  /-- The field must be there. -/
  | required
  /-- The field is optional and then absent. -/
  | absent
  | fallback (value : Value)

mutual

/-- A type that values can be read as. -/
inductive Shape where
  | bool
  | char
  | text
  | unit
  | int (kind : IntKind)
  | float (kind : FloatKind)
  /-- Every value, unchanged. -/
  | any
  | option (inner : Shape)
  | list (item : Shape)
  | tuple (items : List Shape)
  /-- A map whose keys are texts. -/
  | dictionary (item : Shape)
  /-- A record; a strict one refuses keys that are none of its fields. -/
  | record (strict : Bool) (fields : List Field)
  /-- One of several cases, each with a name. -/
  | choice (cases : List Case)
  /-- A type of its own name around another one. -/
  | named (inner : Shape)

/-- A field of a record. -/
inductive Field where
  | mk (name : String) (shape : Shape) (missing : Missing)

/-- A case of a choice and what it holds. -/
inductive Case where
  | bare (name : String)
  | holding (name : String) (inner : Shape)
  | tuple (name : String) (items : List Shape)
  | record (name : String) (fields : List Field)

end

def Field.name : Field → String
  | mk name _ _ => name

def Case.name : Case → String
  | bare name | holding name _ | tuple name _ | record name _ => name

namespace Value

def decodeText? (octets : List UInt8) : Option String :=
  String.fromUTF8? (ByteArray.mk octets.toArray)

/-- Reads a text, also from a character or from its encoding. -/
def asText? : Value → Option String
  | .str text => some text
  | .char c => some c.toString
  | .bytes octets => decodeText? octets
  | _ => none

def asChar? : Value → Option Char
  | .char c => some c
  | .str text =>
      match text.toList with
      | [c] => some c
      | _ => none
  | _ => none

def asInt? (kind : IntKind) : Value → Option SizedInt
  | .int n => SizedInt.ofInt? kind n.val
  | _ => none

/-- Reads a number of any kind as a float of the given size. -/
def asFloat? (kind : FloatKind) : Value → Option SizedFloat
  | .float x => some (x.convert kind)
  | .int n => some (.ofInt kind n.val)
  | _ => none

/-- Reads a key that picks one of some names: the place of the name, or nothing if it
picks none of them. Signed numbers and other values are no such keys. -/
def asChoiceOf? (names : List String) : Value → Option (Option Nat)
  | .str text => some (names.idxOf? text)
  | .char c => some (names.idxOf? c.toString)
  | .bytes octets => some ((decodeText? octets).bind names.idxOf?)
  | .int n =>
      if n.kind.isSigned then none
      else some (if n.val < names.length then some n.val.toNat else none)
  | _ => none

end Value

/-- Sorts the entries of a map by the fields they belong to. Entries of no field are
left out, or refused if the record is strict. -/
def fieldEntries? (strict : Bool) (names : List String) :
    List (Value × Value) → Option (List (Nat × Value))
  | [] => some []
  | (key, value) :: rest =>
      match key.asChoiceOf? names with
      | none => none
      | some none => if strict then none else fieldEntries? strict names rest
      | some (some place) => (fieldEntries? strict names rest).map ((place, value) :: ·)

/-- The values that belong to a field. -/
def entriesAt (place : Nat) (entries : List (Nat × Value)) : List Value :=
  (entries.filter fun entry => entry.1 = place).map Prod.snd

namespace Shape

mutual

def read : Shape → Value → Option Value
  | .bool, v =>
      match v with
      | .bool b => some (.bool b)
      | _ => none
  | .char, v => v.asChar?.map .char
  | .text, v => v.asText?.map .str
  | .unit, v =>
      match v with
      | .unit => some .unit
      | _ => none
  | .int kind, v => (v.asInt? kind).map .int
  | .float kind, v => (v.asFloat? kind).map .float
  | .any, v => some v
  | .option inner, v =>
      match v with
      | .nothing | .unit => some .nothing
      | .just w => (read inner w).map .just
      | w => (read inner w).map .just
  | .list item, v =>
      match v with
      | .seq xs => (xs.mapM fun x => read item x).map .seq
      | _ => none
  | .tuple items, v =>
      match v with
      | .seq xs => (readItems items xs).map .seq
      | _ => none
  | .dictionary item, v =>
      match v with
      | .map entries =>
          (entries.mapM fun (entry : Value × Value) =>
            match entry.1.asText?, read item entry.2 with
            | some name, some w => some (name, w)
            | _, _ => none).map Value.ofFields
      | _ => none
  | .record strict fields, v =>
      match v with
      | .map entries =>
          (fieldEntries? strict (fields.map Field.name) entries).bind fun found =>
            (readFields found 0 fields).map Value.ofFields
      | .seq xs => (readInOrder fields xs).map Value.ofFields
      | _ => none
  | .choice cases, v =>
      match v with
      | .str name => (cases.map Case.name).idxOf? name |>.bind fun place =>
          readBare place cases
      | .map [(key, payload)] =>
          match key.asChoiceOf? (cases.map Case.name) with
          | some (some place) => readCase place payload cases
          | _ => none
      | _ => none
  | .named inner, v =>
      match v with
      | .newtype w => (read inner w).map .newtype
      | w => (read inner w).map .newtype

/-- Reads one value for each shape. Further values are left alone. -/
def readItems : List Shape → List Value → Option (List Value)
  | [], _ => some []
  | _ :: _, [] => none
  | shape :: shapes, x :: xs =>
      match read shape x, readItems shapes xs with
      | some y, some ys => some (y :: ys)
      | _, _ => none

/-- Reads the fields from `place` on out of the entries of a map. A field may have one
entry only. -/
def readFields (found : List (Nat × Value)) (place : Nat) :
    List Field → Option (List (String × Value))
  | [] => some []
  | .mk name shape missing :: rest =>
      let field :=
        match entriesAt place found, missing with
        | [x], _ => read shape x
        | [], .absent => some .nothing
        | [], .fallback value => some value
        | _, _ => none
      match field, readFields found (place + 1) rest with
      | some y, some ys => some ((name, y) :: ys)
      | _, _ => none

/-- Reads the fields out of a sequence. Only fields with a fallback may be missing, and
further values are left alone. -/
def readInOrder : List Field → List Value → Option (List (String × Value))
  | [], _ => some []
  | .mk name shape missing :: rest, xs =>
      let field :=
        match xs, missing with
        | x :: _, _ => read shape x
        | [], .fallback value => some value
        | [], _ => none
      match field, readInOrder rest xs.tail with
      | some y, some ys => some ((name, y) :: ys)
      | _, _ => none

/-- The case at a place by its name alone. It must be one that holds nothing. -/
def readBare (place : Nat) : List Case → Option Value
  | [] => none
  | c :: rest =>
      match place, c with
      | 0, .bare name => some (.str name)
      | 0, _ => none
      | n + 1, _ => readBare n rest

/-- The case at a place with what it holds. -/
def readCase (place : Nat) (payload : Value) : List Case → Option Value
  | [] => none
  | .bare name :: rest =>
      match place, payload with
      | 0, .unit => some (.str name)
      | 0, _ => none
      | n + 1, _ => readCase n payload rest
  | .holding name inner :: rest =>
      match place with
      | 0 => (read inner payload).map fun x => .ofFields [(name, x)]
      | n + 1 => readCase n payload rest
  | .tuple name items :: rest =>
      match place, payload with
      | 0, .seq xs =>
          if xs.length = items.length then
            (readItems items xs).map fun ys => .ofFields [(name, .seq ys)]
          else none
      | 0, _ => none
      | n + 1, _ => readCase n payload rest
  | .record name fields :: rest =>
      match place, payload with
      | 0, .map entries =>
          (fieldEntries? false (fields.map Field.name) entries).bind fun found =>
            (readFields found 0 fields).map fun xs => .ofFields [(name, .ofFields xs)]
      | 0, _ => none
      | n + 1, _ => readCase n payload rest

end

end Shape
end SettingsTree
