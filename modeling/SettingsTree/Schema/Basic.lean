import SettingsTree.Constructor
import SettingsTree.Stamp
import SettingsTree.Identifier
import SettingsTree.Fault

/-!
# Schemas

A schema lists the definitions of settings in the order of their first
declaration, each name once. Declaring a name again replaces its definition
where it stands. A definition is a single setting, with a default and a
constructor, or a group, with a schema of its own.
-/
namespace SettingsTree

mutual

/-- One named setting, or one named group of settings. -/
structure Definition where
  stamp : Stamp
  name : String
  /-- What the constructor is given when no value is assigned. -/
  fallback : Option Value
  construct : Constructor
  /-- Whether owners offer the setting by its name alone. -/
  reader : Bool
  /-- The settings inside, if this is a group. -/
  group : Option Schema

/-- The declared shape of a configuration. -/
structure Schema where
  definitions : List Definition
  frozen : Bool

end

namespace Definition

def isGroup (d : Definition) : Bool :=
  d.group.isSome

/-- Runs the constructor over the given value, or else over the default, or else
over nothing. -/
def resolve (d : Definition) (given : Option Value) : Except Fault Value :=
  match d.construct.run (given.or d.fallback) with
  | .ok value => .ok value
  | .error reason => .error (.rejected d.name reason)

theorem fault_of_resolve {d : Definition} {given : Option Value} {fault : Fault}
    (h : d.resolve given = .error fault) : ∃ reason, fault = .rejected d.name reason := by
  unfold resolve at h
  split at h
  · cases h
  · next reason _ => exact ⟨reason, (Except.error.inj h).symm⟩

/-- A definition from its parts. The name must be there and be an identifier. -/
def build (stamp : Stamp) (name : Option String) (fallback : Option Value)
    (construct : Constructor) (reader : Bool) (group : Option Schema) :
    Except Fault Definition :=
  match name with
  | none => .error .missingName
  | some name =>
      if isIdentifier name then .ok ⟨stamp, name, fallback, construct, reader, group⟩
      else .error (.invalidName name)

theorem build_ok {stamp : Stamp} {name : Option String} {fallback : Option Value}
    {construct : Constructor} {reader : Bool} {group : Option Schema} {d : Definition}
    (h : build stamp name fallback construct reader group = .ok d) :
    d.stamp = stamp ∧ d.group = group ∧ isIdentifier d.name = true := by
  unfold build at h
  split at h
  · cases h
  · split at h <;> cases h
    exact ⟨rfl, rfl, ‹_›⟩

def find? (name : String) : List Definition → Option Definition
  | [] => none
  | d :: rest => if d.name = name then some d else find? name rest

/-- Puts a definition in the place of the one of its name, or else at the end. -/
def insert (d : Definition) : List Definition → List Definition
  | [] => [d]
  | old :: rest => if old.name = d.name then d :: rest else old :: insert d rest

def insertAll (theirs ours : List Definition) : List Definition :=
  theirs.foldl (fun acc d => insert d acc) ours

end Definition

namespace Schema

def empty : Schema := ⟨[], false⟩

def names (s : Schema) : List String :=
  s.definitions.map Definition.name

def lookup (s : Schema) (name : String) : Option Definition :=
  Definition.find? name s.definitions

def contains (s : Schema) (name : String) : Bool :=
  (s.lookup name).isSome

def size (s : Schema) : Nat :=
  s.definitions.length

def isEmpty (s : Schema) : Bool :=
  s.definitions.isEmpty

/-- Adds a definition, unless the schema is frozen. -/
def declare (s : Schema) (d : Definition) : Attempt Schema :=
  if s.frozen then .failed s (.frozenSchema d.name)
  else .done { s with definitions := d.insert s.definitions }

/-- Adds every definition of another schema; a group replaces a group of its name
as a whole. A frozen schema takes in nothing but an empty one. -/
def incorporate (s other : Schema) : Attempt Schema :=
  match s.frozen, other.definitions with
  | true, first :: _ => .failed s (.frozenSchema first.name)
  | _, theirs => .done { s with definitions := Definition.insertAll theirs s.definitions }

/-- The same definitions, open to further declarations. -/
def duplicate (s : Schema) : Schema :=
  { s with frozen := false }

def freeze (s : Schema) : Schema :=
  { s with frozen := true }

end Schema
end SettingsTree
