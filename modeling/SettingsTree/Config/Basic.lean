import SettingsTree.Table
import SettingsTree.Path
import SettingsTree.Schema.Basic
import SettingsTree.Value.Order

/-!
# Configurations

A configuration has the shape of its schema. It stores the values assigned to
single settings and one configuration for every group; a setting that was not
assigned is resolved from its default each time it is read. An assigned value is
stored as its constructor returned it.

The shape is a property, not a type: `Config.Shaped` says that what is stored
fits the schema at every depth, and `Config.fresh` has it.
-/
namespace SettingsTree

/-- Values bound to a schema. -/
structure Config where
  schema : Schema
  /-- Assigned values of single settings. -/
  values : List (String × Value)
  /-- The configurations of groups. -/
  groups : List (String × Config)
  frozen : Bool

/-- What stands under a name: the value of a setting, or a group. -/
inductive Reading where
  | value (v : Value)
  | group (c : Config)

namespace Config

mutual

/-- The configuration of a schema to which nothing was assigned. -/
def fresh : Schema → Config
  | ⟨definitions, frozen⟩ => ⟨⟨definitions, frozen⟩, [], freshGroups definitions, false⟩

/-- A fresh configuration for every group among the definitions. -/
def freshGroups : List Definition → List (String × Config)
  | [] => []
  | ⟨_, name, _, _, _, some inner⟩ :: rest =>
      Table.insert name (fresh inner) (freshGroups rest)
  | ⟨_, _, _, _, _, none⟩ :: rest => freshGroups rest

end

def definition (c : Config) (name : String) : Except Fault Definition :=
  match c.schema.lookup name with
  | some d => .ok d
  | none => .error (.unknownSetting name)

def nested (c : Config) (name : String) : Except Fault Config :=
  match c.definition name with
  | .error fault => .error fault
  | .ok _ =>
      match Table.find? name c.groups with
      | some inner => .ok inner
      | none => .error (.notNested name)

/-- The group at the end of a walk. -/
def descend (c : Config) : List String → Except Fault Config
  | [] => .ok c
  | name :: rest =>
      match c.nested name with
      | .error fault => .error fault
      | .ok inner => inner.descend rest

def get (c : Config) (name : String) : Except Fault Reading :=
  match c.definition name with
  | .error fault => .error fault
  | .ok d =>
      match Table.find? name c.groups, Table.find? name c.values with
      | some inner, _ => .ok (.group inner)
      | none, some v => .ok (.value v)
      | none, none => (d.resolve none).map .value

/-- Puts a configuration in the place of a group. -/
def withGroup (c : Config) (name : String) (inner : Config) : Config :=
  { c with groups := Table.insert name inner c.groups }

def withValue (c : Config) (name : String) (value : Value) : Config :=
  { c with values := Table.insert name value c.values }

/-- What is stored fits the schema: every assigned name is a single setting, and
there is a group of the right schema, fitting in turn, exactly for the groups. -/
inductive Shaped : Config → Prop where
  | intro (c : Config)
      (assigned : ∀ name value, Table.find? name c.values = some value →
        ∃ d, c.schema.lookup name = some d ∧ d.group = none)
      (declared : ∀ name inner, Table.find? name c.groups = some inner →
        ∃ d, c.schema.lookup name = some d ∧ d.group = some inner.schema)
      (present : ∀ name d s, c.schema.lookup name = some d → d.group = some s →
        ∃ inner, Table.find? name c.groups = some inner)
      (inside : ∀ name inner, Table.find? name c.groups = some inner → Shaped inner) :
      Shaped c

@[simp] theorem schema_fresh (s : Schema) : (fresh s).schema = s := by
  cases s; rfl

@[simp] theorem values_fresh (s : Schema) : (fresh s).values = [] := by
  cases s; rfl

@[simp] theorem groups_fresh (s : Schema) : (fresh s).groups = freshGroups s.definitions := by
  cases s; rfl

@[simp] theorem frozen_fresh (s : Schema) : (fresh s).frozen = false := by
  cases s; rfl

end Config
end SettingsTree
