import SettingsTree.Proofs.Config.Calls
import SettingsTree.Proofs.Config.Groups
import SettingsTree.Proofs.Renaming.Schema

/-!
# Configurations under other authors

Renaming the authors of all definitions changes no answer of a configuration: values,
faults, names and frozen marks have no stamps in them. Edits, copies and the other
calls commute with renaming. Rebinding compares stamps, so there the renaming must not
make two authors one.
-/
namespace SettingsTree.Config

variable (σ : Nat → Nat)

mutual

def rename : Config → Config
  | ⟨schema, values, groups, frozen⟩ =>
      ⟨schema.rename σ, values, renameGroups groups, frozen⟩

def renameGroups : List (String × Config) → List (String × Config)
  | [] => []
  | (name, inner) :: rest => (name, rename inner) :: renameGroups rest

end

theorem renameGroups_eq (groups : List (String × Config)) :
    renameGroups σ groups = Table.mapEntries (rename σ) groups := by
  induction groups with
  | nil => rfl
  | cons head rest ih =>
      rw [renameGroups, ih]
      rfl

@[simp] theorem schema_rename (c : Config) : (c.rename σ).schema = c.schema.rename σ := by
  cases c; rfl

@[simp] theorem values_rename (c : Config) : (c.rename σ).values = c.values := by
  cases c; rfl

@[simp] theorem frozen_rename (c : Config) : (c.rename σ).frozen = c.frozen := by
  cases c; rfl

@[simp] theorem groups_rename (c : Config) :
    (c.rename σ).groups = Table.mapEntries (rename σ) c.groups := by
  cases c
  exact renameGroups_eq σ _

theorem find?_groups_rename (c : Config) (name : String) :
    Table.find? name (c.rename σ).groups = (Table.find? name c.groups).map (rename σ) := by
  rw [groups_rename, Table.find?_mapEntries]

theorem rename_mk (schema : Schema) (values : List (String × Value))
    (groups : List (String × Config)) (frozen : Bool) :
    (Config.mk schema values groups frozen).rename σ =
      ⟨schema.rename σ, values, Table.mapEntries (rename σ) groups, frozen⟩ := by
  rw [rename, renameGroups_eq]

theorem withValue_rename (c : Config) (name : String) (v : Value) :
    (c.rename σ).withValue name v = (c.withValue name v).rename σ := by
  cases c; rfl

theorem withGroup_rename (c : Config) (name : String) (inner : Config) :
    (c.rename σ).withGroup name (inner.rename σ) = (c.withGroup name inner).rename σ := by
  cases c
  rw [rename_mk]
  simp only [withGroup]
  rw [rename_mk, Table.mapEntries_insert]

section Reads

theorem definition_rename (c : Config) (name : String) :
    (c.rename σ).definition name = (c.definition name).map (Definition.rename σ) := by
  unfold definition
  rw [schema_rename, Schema.lookup_rename]
  cases c.schema.lookup name <;> rfl

theorem nested_rename (c : Config) (name : String) :
    (c.rename σ).nested name = (c.nested name).map (rename σ) := by
  unfold nested
  rw [definition_rename, find?_groups_rename]
  cases c.definition name with
  | error fault => rfl
  | ok d => cases Table.find? name c.groups <;> rfl

theorem descend_rename (c : Config) (walk : List String) :
    (c.rename σ).descend walk = (c.descend walk).map (rename σ) := by
  induction walk generalizing c with
  | nil => rfl
  | cons name rest ih =>
      rw [descend, descend, nested_rename]
      cases c.nested name with
      | error fault => rfl
      | ok inner => exact ih inner

theorem valueOf_rename (values : List (String × Value))
    (groups : List (String × Except Fault Value)) (d : Definition) :
    valueOf values groups (d.rename σ) = valueOf values groups d := by
  simp only [valueOf, Definition.name_rename, Definition.resolve_rename]

theorem valuesOf_rename (values : List (String × Value))
    (groups : List (String × Except Fault Value)) (ds : List Definition) :
    valuesOf values groups (ds.map (Definition.rename σ)) = valuesOf values groups ds := by
  induction ds with
  | nil => rfl
  | cons d rest ih =>
      rw [List.map_cons, valuesOf, valuesOf, valueOf_rename, ih, Definition.name_rename]

mutual

theorem toValue_rename : ∀ c : Config, (c.rename σ).toValue = c.toValue
  | ⟨schema, values, groups, frozen⟩ => by
      rw [rename, toValue, toValue, groupValues_rename groups, Schema.definitions_rename,
        valuesOf_rename]

theorem groupValues_rename : ∀ groups : List (String × Config),
    groupValues (renameGroups σ groups) = groupValues groups
  | [] => rfl
  | (name, inner) :: rest => by
      rw [renameGroups, groupValues, groupValues, toValue_rename inner, groupValues_rename rest]

end

theorem value_rename (c : Config) (name : String) : (c.rename σ).value name = c.value name := by
  unfold value get
  rw [definition_rename, find?_groups_rename, values_rename]
  cases c.definition name with
  | error fault => rfl
  | ok d =>
      simp only [Except.map, Definition.resolve_rename]
      cases Table.find? name c.groups with
      | some inner => exact toValue_rename σ inner
      | none => rfl

theorem getAt_rename (c : Config) (path : Path) : (c.rename σ).getAt path = c.getAt path := by
  unfold getAt
  rw [descend_rename]
  cases c.descend path.parents with
  | error fault => rfl
  | ok inner => exact value_rename σ inner path.leaf

end Reads

end SettingsTree.Config

namespace SettingsTree.Emission
variable (σ : Nat → Nat)

theorem settingsOf_rename (values : List (String × Value)) (groups : List (String × Emission))
    (ds : List Definition) :
    settingsOf values groups (ds.map (Definition.rename σ)) = settingsOf values groups ds := by
  induction ds with
  | nil => rfl
  | cons d rest ih =>
      rw [List.map_cons, settingsOf, settingsOf, Definition.name_rename, Config.valueOf_rename, ih]

theorem groupsOf_rename (groups : List (String × Emission)) (ds : List Definition) :
    groupsOf groups (ds.map (Definition.rename σ)) = groupsOf groups ds := by
  induction ds with
  | nil => rfl
  | cons d rest ih => rw [List.map_cons, groupsOf, groupsOf, Definition.name_rename, ih]

end SettingsTree.Emission

namespace SettingsTree.Config
variable (σ : Nat → Nat)

mutual

theorem emission_rename : ∀ c : Config, (c.rename σ).emission = c.emission
  | ⟨schema, values, groups, frozen⟩ => by
      rw [rename, emission, emission, groupEmissions_rename groups, Schema.definitions_rename,
        Emission.settingsOf_rename, Emission.groupsOf_rename]

theorem groupEmissions_rename : ∀ groups : List (String × Config),
    groupEmissions (renameGroups σ groups) = groupEmissions groups
  | [] => rfl
  | (name, inner) :: rest => by
      rw [renameGroups, groupEmissions, groupEmissions, emission_rename inner,
        groupEmissions_rename rest]

end

section Writes

def Target.rename : Target → Target
  | .setting d => .setting (d.rename σ)
  | .group inner => .group (inner.rename σ)

theorem target_rename (c : Config) (name : String) :
    (c.rename σ).target name = (c.target name).map (Target.rename σ) := by
  unfold target
  rw [frozen_rename, definition_rename, find?_groups_rename]
  split_ifs
  · rfl
  · cases c.definition name with
    | error fault => rfl
    | ok d =>
        simp only [Except.map, Definition.isGroup_rename]
        split_ifs
        · cases Table.find? name c.groups <;> rfl
        · rfl

theorem assign_rename (c : Config) (d : Definition) (raw : Value) :
    (c.rename σ).assign (d.rename σ) raw = (c.assign d raw).into (rename σ) := by
  unfold assign
  rw [Definition.resolve_rename, Definition.name_rename]
  cases d.resolve (some raw) with
  | ok v => exact congrArg Attempt.done (withValue_rename σ c d.name v)
  | error fault => rfl

theorem into_withGroup_rename (c : Config) (name : String) (a : Attempt Config) :
    (a.into (rename σ)).into ((c.rename σ).withGroup name) =
      (a.into (c.withGroup name)).into (rename σ) :=
  congrArg (Attempt.mk · a.fault) (withGroup_rename σ c name a.state)

theorem set_of_not_map_rename (c : Config) (name : String) {raw : Value}
    (h : ∀ entries, raw ≠ .map entries) :
    (c.rename σ).set name raw = (c.set name raw).into (rename σ) := by
  rw [set.eq_2 _ name raw h, set.eq_2 _ name raw h, target_rename]
  cases c.target name with
  | error fault => rfl
  | ok t =>
      cases t with
      | setting d => exact assign_rename σ c d raw
      | group inner => rfl

mutual

theorem set_rename : ∀ (c : Config) (name : String) (raw : Value),
    (c.rename σ).set name raw = (c.set name raw).into (rename σ)
  | c, name, .map entries => by
      rw [set, set, target_rename]
      cases c.target name with
      | error fault => rfl
      | ok t =>
          cases t with
          | setting d => exact assign_rename σ c d _
          | group inner =>
              simp only [Except.map, Target.rename]
              cases strayKey? entries with
              | some key => rfl
              | none =>
                  simp only [setAll_rename inner entries]
                  exact into_withGroup_rename σ c name _
  | c, name, .bool _ | c, name, .int _ | c, name, .float _ | c, name, .char _
  | c, name, .str _ | c, name, .unit | c, name, .nothing | c, name, .just _
  | c, name, .newtype _ | c, name, .seq _ | c, name, .bytes _ =>
      set_of_not_map_rename σ c name fun _ h => nomatch h

theorem setAll_rename : ∀ (c : Config) (entries : List (Value × Value)),
    (c.rename σ).setAll entries = (c.setAll entries).into (rename σ)
  | c, [] => rfl
  | c, (key, raw) :: rest => by
      by_cases hk : ∃ name, key = .str name
      · obtain ⟨name, rfl⟩ := hk
        rw [setAll, setAll, set_rename c name raw]
        exact Attempt.into_andThen _ _ (setAll_rename _ rest)
      · have hne : ∀ name, key = .str name → False := fun name he => hk ⟨name, he⟩
        rw [setAll.eq_3 _ key raw rest hne, setAll.eq_3 _ key raw rest hne]
        rfl

end

theorem update_rename (c : Config) (batch : Value) :
    (c.rename σ).update batch = (c.update batch).into (rename σ) := by
  cases batch with
  | map entries =>
      simp only [update]
      cases strayKey? entries with
      | some key => rfl
      | none => exact setAll_rename σ c entries
  | bool | int | float | char | str | unit | nothing | just | newtype | seq | bytes => rfl

theorem within_rename {edit edit' : Config → Attempt Config}
    (h : ∀ c : Config, edit' (c.rename σ) = (edit c).into (rename σ)) (walk : List String)
    (c : Config) :
    (c.rename σ).within walk edit' = (c.within walk edit).into (rename σ) := by
  induction walk generalizing c with
  | nil => exact h c
  | cons name rest ih =>
      rw [within, within, nested_rename]
      cases c.nested name with
      | error fault => rfl
      | ok inner =>
          simp only [Except.map, ih inner]
          exact into_withGroup_rename σ c name _

end Writes

section Copies

mutual

theorem finalize_rename : ∀ c : Config, (c.rename σ).finalize = c.finalize.rename σ
  | ⟨schema, values, groups, true⟩ => by rw [finalize, rename, finalize]
  | ⟨schema, values, groups, false⟩ => by
      rw [finalize, rename, finalize, rename, finalizeGroups_rename groups]

theorem finalizeGroups_rename : ∀ groups : List (String × Config),
    finalizeGroups (renameGroups σ groups) = renameGroups σ (finalizeGroups groups)
  | [] => rfl
  | (name, inner) :: rest => by
      rw [renameGroups, finalizeGroups, finalizeGroups, renameGroups, finalize_rename inner,
        finalizeGroups_rename rest]

end

mutual

theorem duplicate_rename : ∀ c : Config, (c.rename σ).duplicate = c.duplicate.rename σ
  | ⟨schema, values, groups, frozen⟩ => by
      rw [duplicate, rename, duplicate, rename, duplicateGroups_rename groups]

theorem duplicateGroups_rename : ∀ groups : List (String × Config),
    duplicateGroups (renameGroups σ groups) = renameGroups σ (duplicateGroups groups)
  | [] => rfl
  | (name, inner) :: rest => by
      rw [renameGroups, duplicateGroups, duplicateGroups, renameGroups, duplicate_rename inner,
        duplicateGroups_rename rest]

end

mutual

theorem fresh_rename : ∀ s : Schema, fresh (s.rename σ) = (fresh s).rename σ
  | ⟨definitions, frozen⟩ => by
      rw [fresh, rename_mk, Schema.rename, fresh, freshGroups_rename definitions]

theorem freshGroups_rename : ∀ ds : List Definition,
    freshGroups (Schema.renameAll σ ds) = Table.mapEntries (rename σ) (freshGroups ds)
  | [] => rfl
  | ⟨_, name, _, _, _, some inner⟩ :: rest => by
      rw [Schema.renameAll, Definition.rename, Definition.renameGroup, freshGroups, freshGroups,
        Table.mapEntries_insert, fresh_rename inner, freshGroups_rename rest]
  | ⟨_, _, _, _, _, none⟩ :: rest => by
      rw [Schema.renameAll, Definition.rename, Definition.renameGroup, freshGroups, freshGroups,
        freshGroups_rename rest]

end

variable {σ}

theorem keptValue?_rename (hσ : σ.Injective) (old : Config) (d : Definition) :
    (old.rename σ).keptValue? (d.rename σ) = old.keptValue? d := by
  unfold keptValue?
  rw [Definition.group_rename, Definition.name_rename, schema_rename, Schema.lookup_rename,
    values_rename, Definition.stamp_rename]
  cases d.group with
  | some inner => cases old.schema.lookup d.name <;> rfl
  | none =>
      cases old.schema.lookup d.name with
      | none => rfl
      | some before =>
          simp only [Option.map_none, Option.map_some, Definition.stamp_rename,
            Stamp.rename_inj hσ]

theorem keptValues_rename (hσ : σ.Injective) (old : Config)
    (ds : List Definition) :
    (old.rename σ).keptValues (ds.map (Definition.rename σ)) = old.keptValues ds := by
  induction ds with
  | nil => rfl
  | cons d rest ih =>
      rw [List.map_cons, keptValues, keptValues, keptValue?_rename hσ, Definition.name_rename, ih]

mutual

theorem rebind_rename (hσ : σ.Injective) : ∀ (old : Config) (s : Schema),
    (old.rename σ).rebind (s.rename σ) = (old.rebind s).rename σ
  | old, ⟨definitions, frozen⟩ => by
      rw [rebind, rename_mk, Schema.rename, rebind, rebindGroups_rename hσ old definitions,
        Schema.renameAll_eq, keptValues_rename hσ, frozen_rename]

theorem rebindGroups_rename (hσ : σ.Injective) :
    ∀ (old : Config) (ds : List Definition),
    rebindGroups (old.rename σ) (Schema.renameAll σ ds) =
      Table.mapEntries (rename σ) (rebindGroups old ds)
  | old, [] => rfl
  | old, ⟨_, name, _, _, _, some inner⟩ :: rest => by
      rw [Schema.renameAll, Definition.rename, Definition.renameGroup, rebindGroups, rebindGroups,
        Table.mapEntries_insert, rebindGroups_rename hσ old rest, find?_groups_rename]
      cases Table.find? name old.groups with
      | some before =>
          simp only [Option.map_some]
          rw [rebind_rename hσ before inner]
      | none =>
          simp only [Option.map_none]
          rw [fresh_rename σ inner]
  | old, ⟨_, _, _, _, _, none⟩ :: rest => by
      rw [Schema.renameAll, Definition.rename, Definition.renameGroup, rebindGroups, rebindGroups,
        rebindGroups_rename hσ old rest]

end

end Copies

end SettingsTree.Config
