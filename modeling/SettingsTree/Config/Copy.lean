import SettingsTree.Config.Basic

/-!
# Freezing, copying and rebinding configurations

Finalizing freezes a configuration and every group inside. A duplicate holds the
same values and is open at every depth. Rebinding carries assigned values over
to another schema: a value is kept only where the setting is the very same
definition, since a value is stored as that definition's constructor returned
it. Groups are rebound inside, whatever became of their own definitions.
-/
namespace SettingsTree.Config

mutual

/-- Freezes a configuration and every group inside; one that is frozen stays as it is. -/
def finalize : Config → Config
  | ⟨schema, values, groups, true⟩ => ⟨schema, values, groups, true⟩
  | ⟨schema, values, groups, false⟩ => ⟨schema, values, finalizeGroups groups, true⟩

def finalizeGroups : List (String × Config) → List (String × Config)
  | [] => []
  | (name, inner) :: rest => (name, finalize inner) :: finalizeGroups rest

end

mutual

/-- The same values, open at every depth. -/
def duplicate : Config → Config
  | ⟨schema, values, groups, _⟩ => ⟨schema, values, duplicateGroups groups, false⟩

def duplicateGroups : List (String × Config) → List (String × Config)
  | [] => []
  | (name, inner) :: rest => (name, duplicate inner) :: duplicateGroups rest

end

/-- The assigned value that a definition keeps from an earlier configuration: it
must be a single setting, and the very same definition as there. -/
def keptValue? (old : Config) (d : Definition) : Option Value :=
  match d.group, old.schema.lookup d.name with
  | none, some before => if before.stamp = d.stamp then Table.find? d.name old.values else none
  | _, _ => none

def keptValues (old : Config) : List Definition → List (String × Value)
  | [] => []
  | d :: rest =>
      match old.keptValue? d with
      | some value => Table.insert d.name value (keptValues old rest)
      | none => keptValues old rest

mutual

/-- Carries the assigned values over to another schema. -/
def rebind (old : Config) : Schema → Config
  | ⟨definitions, frozen⟩ =>
      ⟨⟨definitions, frozen⟩, old.keptValues definitions, rebindGroups old definitions, old.frozen⟩

def rebindGroups (old : Config) : List Definition → List (String × Config)
  | [] => []
  | ⟨_, name, _, _, _, some inner⟩ :: rest =>
      Table.insert name
        (match Table.find? name old.groups with
          | some before => rebind before inner
          | none => fresh inner)
        (rebindGroups old rest)
  | ⟨_, _, _, _, _, none⟩ :: rest => rebindGroups old rest

end

@[simp] theorem schema_rebind (old : Config) (s : Schema) : (old.rebind s).schema = s := by
  cases s; rfl

@[simp] theorem frozen_rebind (old : Config) (s : Schema) :
    (old.rebind s).frozen = old.frozen := by
  cases s; rfl

@[simp] theorem schema_duplicate (c : Config) : c.duplicate.schema = c.schema := by
  cases c; rfl

@[simp] theorem frozen_duplicate (c : Config) : c.duplicate.frozen = false := by
  cases c; rfl

@[simp] theorem frozen_finalize (c : Config) : c.finalize.frozen = true := by
  obtain ⟨schema, values, groups, _ | _⟩ := c <;> rfl

end SettingsTree.Config
