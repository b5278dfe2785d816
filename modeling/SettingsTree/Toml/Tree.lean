import SettingsTree.Table
import SettingsTree.Value.Order

/-!
# How the statements of a TOML document make up a tree

A document assigns values to keys, and its headers open tables. A table comes to
be in one of three ways: by a header of its own, as a step on the path of
another header, or as a step of a dotted key. The way decides what may happen to
it later: a table with a header is not opened again, a step on a header's path
can still get a header of its own, and dotted keys go only through tables that
have no header, and assign only into tables that dotted keys have made. Values,
inline tables among them, cannot be extended.
-/
namespace SettingsTree.Toml

/-- How a table came to be. -/
inductive TableKind where
  /-- It has a header, or is an element of a repeated table. -/
  | headed
  /-- It is a step on the path of a header. -/
  | implied
  /-- It is a step of a dotted key. -/
  | dotted
deriving DecidableEq, Repr

/-- What stands under a key while a document is read. -/
inductive Node where
  | leaf (value : Value)
  | table (kind : TableKind) (entries : List (String × Node))
  /-- The elements of a repeated table. -/
  | tables (elements : List (List (String × Node)))

/-- The entries of a table while a document is read. -/
abbrev Entries := List (String × Node)

def changeLast {α : Type} (f : α → Option α) : List α → Option (List α)
  | [] => none
  | [x] => (f x).map ([·])
  | x :: y :: rest => (changeLast f (y :: rest)).map (x :: ·)

/-- Assigns a node to the dotted key `path`, `name`. -/
def assign (name : String) (node : Node) (path : List String) (entries : Entries) :
    Option Entries :=
  match path with
  | [] =>
      match Table.find? name entries with
      | none => some (Table.insert name node entries)
      | some _ => none
  | step :: rest =>
      match Table.find? step entries with
      | none =>
          (assign name node rest []).map fun inner =>
            Table.insert step (.table .dotted inner) entries
      | some (.table .dotted inner) =>
          (assign name node rest inner).map fun inner =>
            Table.insert step (.table .dotted inner) entries
      | some (.table .implied inner) =>
          if rest.isEmpty then none
          else
            (assign name node rest inner).map fun inner =>
              Table.insert step (.table .implied inner) entries
      | some (.tables elements) =>
          if rest.isEmpty then none
          else
            (changeLast (assign name node rest) elements).map fun elements =>
              Table.insert step (.tables elements) entries
      | some _ => none

/-- Changes the table at the path of a header. Steps that are missing become implied
tables, and a step on a repeated table goes to its last element. -/
def alterAt (change : Entries → Option Entries) (path : List String) (entries : Entries) :
    Option Entries :=
  match path with
  | [] => change entries
  | step :: rest =>
      match Table.find? step entries with
      | none =>
          (alterAt change rest []).map fun inner =>
            Table.insert step (.table .implied inner) entries
      | some (.table kind inner) =>
          (alterAt change rest inner).map fun inner =>
            Table.insert step (.table kind inner) entries
      | some (.tables elements) =>
          (changeLast (alterAt change rest) elements).map fun elements =>
            Table.insert step (.tables elements) entries
      | some (.leaf _) => none

/-- A dotted key with the value assigned to it. -/
structure Assignment where
  path : List String
  name : String
  value : Value

def assignAll (assignments : List Assignment) (entries : Entries) : Option Entries :=
  assignments.foldlM (fun entries a => assign a.name (.leaf a.value) a.path entries) entries

/-- A header and the assignments below it. -/
structure Section where
  path : List String
  name : String
  /-- Whether the header adds an element to a repeated table. -/
  repeated : Bool
  assignments : List Assignment

/-- Adds a table to the one its header is in. An implied table keeps what it has. -/
def addSection (s : Section) (entries : Entries) : Option Entries :=
  match s.repeated, Table.find? s.name entries with
  | false, none =>
      (assignAll s.assignments []).map fun inner =>
        Table.insert s.name (.table .headed inner) entries
  | false, some (.table .implied inner) =>
      (assignAll s.assignments inner).map fun inner =>
        Table.insert s.name (.table .headed inner) entries
  | true, none =>
      (assignAll s.assignments []).map fun inner =>
        Table.insert s.name (.tables [inner]) entries
  | true, some (.tables elements) =>
      (assignAll s.assignments []).map fun inner =>
        Table.insert s.name (.tables (elements ++ [inner])) entries
  | _, _ => none

/-- The tree of a document: the assignments before the first header, then the sections. -/
def buildTree (top : List Assignment) (sections : List Section) : Option Entries :=
  (assignAll top []).bind fun entries =>
    sections.foldlM (fun entries s => alterAt (addSection s) s.path entries) entries

mutual

/-- The value of a node: tables are maps, repeated tables are sequences of maps. -/
def Node.toValue : Node → Value
  | .leaf value => value
  | .table _ entries => .ofFields (Node.fields entries)
  | .tables elements => .seq (Node.maps elements)

def Node.fields : List (String × Node) → List (String × Value)
  | [] => []
  | (name, node) :: rest => (name, node.toValue) :: Node.fields rest

def Node.maps : List (List (String × Node)) → List Value
  | [] => []
  | entries :: rest => .ofFields (Node.fields entries) :: Node.maps rest

end

/-- The value of an inline table. Its dotted keys follow the rules of a table. -/
def inlineValue (assignments : List Assignment) : Option Value :=
  (assignAll assignments []).map fun entries => .ofFields (Node.fields entries)

end SettingsTree.Toml
