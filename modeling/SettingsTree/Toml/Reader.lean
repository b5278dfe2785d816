import SettingsTree.Toml.Lexical
import SettingsTree.Toml.Number
import SettingsTree.Toml.Moment
import SettingsTree.Toml.Tree

/-!
# Reading TOML documents

A document is a list of statements, one on a line: headers and assignments.
Arrays and inline tables go over as many lines as they like and may end with a
comma. They can be nested eighty deep, and a dotted key has at most eighty
segments.

Each reader of a nested value takes a number of steps, which goes down with
every call; the length of a document gives enough of them, since no three calls
in a row leave all characters where they are.
-/
namespace SettingsTree.Toml

/-- How deep arrays and inline tables can be nested, and how many segments a key can have. -/
def deepest : Nat := 80

def endsScalar (c : Char) : Bool :=
  isBlank c || c == '\n' || c == '\r' || c == '#' || c == ',' || c == ']' || c == '}'

/-- The value of a text that is not quoted and not nested. -/
def scalar? (text : List Char) : Option Value :=
  if text = ['t', 'r', 'u', 'e'] then some (.bool true)
  else if text = ['f', 'a', 'l', 's', 'e'] then some (.bool false)
  else
    match integerText? text with
    | some v => some v
    | none =>
        match floatText? text with
        | some v => some v
        | none => moment? text

/-- A value that is not quoted and not nested. A date can have a time behind one space. -/
def scalarValue (text : List Char) : Parsed Value :=
  let (first, rest) := text.span fun c => !endsScalar c
  match date? first, rest with
  | some (_, []), ' ' :: c :: more =>
      if c.isDigit then
        let (second, rest) := (c :: more).span fun c => !endsScalar c
        (scalar? (first ++ ' ' :: second)).map fun v => (v, rest)
      else (scalar? first).map fun v => (v, rest)
  | _, _ => (scalar? first).map fun v => (v, rest)

/-- A dotted key as the path it walks and the name at its end. -/
def keyPath (text : List Char) : Parsed (List String × String) :=
  match dottedKey text.length text with
  | some ((first, others), rest) =>
      if others.length < deepest then
        let segments := first :: others
        some ((segments.dropLast, segments.getLastD first), rest)
      else none
  | none => none

mutual

/-- A value. `depth` is how deep the nesting can still go. -/
def value (steps depth : Nat) (text : List Char) : Parsed Value :=
  match steps with
  | 0 => none
  | steps + 1 =>
      match text, depth with
      | '[' :: rest, depth + 1 =>
          (arrayItems steps depth rest).map fun (items, rest) => (.seq items, rest)
      | '\x7b' :: rest, depth + 1 =>
          match inlineEntries steps depth rest with
          | none => none
          | some (assignments, rest) => (inlineValue assignments).map fun v => (v, rest)
      | '[' :: _, 0 => none
      | '\x7b' :: _, 0 => none
      | '"' :: _, _ => (stringValue text).map fun (s, rest) => (.str s, rest)
      | '\'' :: _, _ => (stringValue text).map fun (s, rest) => (.str s, rest)
      | _, _ => scalarValue text

/-- The rest of an array, behind its opening bracket or a comma. -/
def arrayItems (steps depth : Nat) (text : List Char) : Parsed (List Value) :=
  match steps with
  | 0 => none
  | steps + 1 =>
      match skipTrivia false text with
      | none => none
      | some (']' :: rest) => some ([], rest)
      | some rest =>
          match value steps depth rest with
          | none => none
          | some (item, rest) =>
              match skipTrivia false rest with
              | some (']' :: rest) => some ([item], rest)
              | some (',' :: rest) =>
                  (arrayItems steps depth rest).map fun (items, rest) => (item :: items, rest)
              | _ => none

/-- The rest of an inline table, behind its opening brace or a comma. -/
def inlineEntries (steps depth : Nat) (text : List Char) : Parsed (List Assignment) :=
  match steps with
  | 0 => none
  | steps + 1 =>
      match skipTrivia false text with
      | none => none
      | some ('\x7d' :: rest) => some ([], rest)
      | some rest =>
          match inlineEntry steps depth rest with
          | none => none
          | some (entry, rest) =>
              match skipTrivia false rest with
              | some ('\x7d' :: rest) => some ([entry], rest)
              | some (',' :: rest) =>
                  (inlineEntries steps depth rest).map fun (entries, rest) =>
                    (entry :: entries, rest)
              | _ => none

/-- An entry of an inline table. Lines may end on both sides of the equals sign. -/
def inlineEntry (steps depth : Nat) (text : List Char) : Parsed Assignment :=
  match steps with
  | 0 => none
  | steps + 1 =>
      match keyPath text with
      | none => none
      | some ((path, name), rest) =>
          match skipTrivia false rest with
          | some ('=' :: rest) =>
              match skipTrivia false rest with
              | none => none
              | some rest => (value steps depth rest).map fun (v, rest) => (⟨path, name, v⟩, rest)
          | _ => none

end

inductive Statement where
  | header (path : List String) (name : String) (repeated : Bool)
  | assignment (a : Assignment)

/-- The rest of a header, behind its opening brackets. -/
def header (repeated : Bool) (text : List Char) : Parsed Statement :=
  match keyPath text with
  | none => none
  | some ((path, name), rest) =>
      let statement : Statement := .header path name repeated
      match repeated, rest with
      | true, ']' :: ']' :: rest => some (statement, rest)
      | false, ']' :: rest => some (statement, rest)
      | _, _ => none

/-- A statement, up to the end of its line. -/
def statement (text : List Char) : Parsed Statement :=
  let read : Parsed Statement :=
    match text with
    | '[' :: '[' :: rest => header true rest
    | '[' :: rest => header false rest
    | _ =>
        match keyPath text with
        | some ((path, name), '=' :: rest) =>
            let rest := skipBlanks rest
            (value (3 * rest.length + 3) deepest rest).map fun (v, rest) =>
              (.assignment ⟨path, name, v⟩, rest)
        | _ => none
  match read with
  | none => none
  | some (s, rest) => (atLineEnd rest).map fun rest => (s, rest)

/-- At most `lines` statements, up to the end of the document. -/
def statements (lines : Nat) (text : List Char) : Option (List Statement) :=
  match skipTrivia false text with
  | none => none
  | some [] => some []
  | some text =>
      match lines with
      | 0 => none
      | lines + 1 =>
          match statement text with
          | none => none
          | some (s, rest) => (statements lines rest).map (s :: ·)

/-- Splits statements into the assignments before the first header and the sections. -/
def sectionsOf : List Statement → List Assignment × List Section
  | [] => ([], [])
  | .assignment a :: rest =>
      let (top, sections) := sectionsOf rest
      (a :: top, sections)
  | .header path name repeated :: rest =>
      let (top, sections) := sectionsOf rest
      ([], ⟨path, name, repeated, top⟩ :: sections)

/-- Reads a document as a map. A mark of the byte order at its start is left out. -/
def read (text : String) : Option Value :=
  let chars := match text.toList with
    | '\ufeff' :: rest => rest
    | chars => chars
  match statements chars.length chars with
  | none => none
  | some list =>
      let (top, sections) := sectionsOf list
      (buildTree top sections).map fun entries => .ofFields (Node.fields entries)

end SettingsTree.Toml
