import SettingsTree.Config.Basic

/-!
# Configurations as values

A configuration becomes a map from the names of its settings to their values,
with a map in the place of every group. It can be done only if every setting at
every depth resolves; the first one that does not, in declaration order and
depth first, is the fault.
-/
namespace SettingsTree.Config

/-- The value under the name of a definition, given the assigned values and what
became of each group. -/
def valueOf (values : List (String × Value)) (groups : List (String × Except Fault Value))
    (d : Definition) : Except Fault Value :=
  match Table.find? d.name groups, Table.find? d.name values with
  | some inner, _ => inner
  | none, some v => .ok v
  | none, none => d.resolve none

/-- The names and values of definitions in order, up to the first that fails. -/
def valuesOf (values : List (String × Value)) (groups : List (String × Except Fault Value)) :
    List Definition → Except Fault (List (String × Value))
  | [] => .ok []
  | d :: rest =>
      match valueOf values groups d with
      | .error fault => .error fault
      | .ok v => (valuesOf values groups rest).map ((d.name, v) :: ·)

mutual

/-- The whole configuration as a map. -/
def toValue : Config → Except Fault Value
  | ⟨schema, values, groups, _⟩ =>
      (valuesOf values (groupValues groups) schema.definitions).map Value.ofFields

def groupValues : List (String × Config) → List (String × Except Fault Value)
  | [] => []
  | (name, inner) :: rest => (name, toValue inner) :: groupValues rest

end

end Config

def Reading.toValue : Reading → Except Fault Value
  | .value v => .ok v
  | .group inner => inner.toValue

namespace Config

/-- The value under a name, with groups as maps. -/
def value (c : Config) (name : String) : Except Fault Value :=
  match c.get name with
  | .error fault => .error fault
  | .ok reading => reading.toValue

def getAt (c : Config) (path : Path) : Except Fault Value :=
  match c.descend path.parents with
  | .error fault => .error fault
  | .ok inner => inner.value path.leaf

/-- The names and values in declaration order, with groups as maps. -/
def toMap (c : Config) : Except Fault (List (String × Value)) :=
  valuesOf c.values (groupValues c.groups) c.schema.definitions

/-- Whether two configurations resolve completely and to equal maps. -/
def same (a b : Config) : Bool :=
  match a.toValue, b.toValue with
  | .ok x, .ok y => x.same y
  | _, _ => false

end Config

/-- Whether two readings are equal: values as values, and groups as whole
configurations. -/
def Reading.same : Reading → Reading → Bool
  | .value a, .value b => a.same b
  | .group a, .group b => a.same b
  | _, _ => false

namespace Config

theorem find?_groupValues (name : String) (groups : List (String × Config)) :
    Table.find? name (groupValues groups) = (Table.find? name groups).map toValue := by
  induction groups with
  | nil => rfl
  | cons head rest ih =>
      obtain ⟨key, inner⟩ := head
      by_cases same : key = name <;> simp [groupValues, Table.find?, same, ih]

theorem toValue_eq (c : Config) : c.toValue = c.toMap.map Value.ofFields := by
  cases c; rfl

end SettingsTree.Config
