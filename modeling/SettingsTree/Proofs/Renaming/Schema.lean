import SettingsTree.Proofs.Schema.Depth
import SettingsTree.Proofs.Schema.Mapping
import SettingsTree.Schema.Script

/-!
# Other authors, same declarations

Stamps name their authors by numbers, and what the numbers are should not matter.
Renaming gives every author another number, in stamps, definitions, schemas, scopes and
declarations. Everything that schemas and scripts do commutes with it.
-/
namespace SettingsTree

variable (σ : Nat → Nat)

def Stamp.rename : Stamp → Stamp
  | .declared author serial => .declared (σ author) serial
  | .merged ours theirs => .merged ours.rename theirs.rename

theorem Stamp.rename_inj {σ : Nat → Nat} (hσ : σ.Injective) :
    ∀ {s t : Stamp}, s.rename σ = t.rename σ ↔ s = t
  | .declared a m, .declared b n => by
      simp only [rename, Stamp.declared.injEq]
      exact and_congr_left' ⟨fun h => hσ h, congrArg σ⟩
  | .merged a b, .merged c d => by
      simp only [rename, Stamp.merged.injEq]
      exact and_congr (rename_inj hσ) (rename_inj hσ)
  | .declared _ _, .merged _ _ => by simp [rename]
  | .merged _ _, .declared _ _ => by simp [rename]

def Supply.rename (supply : Supply) : Supply :=
  ⟨σ supply.author, supply.next⟩

theorem Supply.stamp_rename (supply : Supply) :
    (supply.rename σ).stamp = supply.stamp.rename σ := rfl

mutual

def Definition.rename : Definition → Definition
  | ⟨stamp, name, fallback, construct, reader, group⟩ =>
      ⟨stamp.rename σ, name, fallback, construct, reader, Definition.renameGroup group⟩

def Definition.renameGroup : Option Schema → Option Schema
  | none => none
  | some s => some (Schema.rename s)

def Schema.rename : Schema → Schema
  | ⟨definitions, frozen⟩ => ⟨Schema.renameAll definitions, frozen⟩

def Schema.renameAll : List Definition → List Definition
  | [] => []
  | d :: rest => Definition.rename d :: Schema.renameAll rest

end

mutual

/-- The schemas that a statement takes in are renamed, the rest of it has no stamps. -/
def Declaration.rename : Declaration → Declaration
  | .setting name options => .setting name options
  | .nested name options block => .nested name options (Declaration.renameAll block)
  | .inclusion other => .inclusion (other.rename σ)
  | .group name script => .group name (Declaration.renameAll script)
  | .unregistered name => .unregistered name

def Declaration.renameAll : List Declaration → List Declaration
  | [] => []
  | d :: rest => Declaration.rename d :: Declaration.renameAll rest

end

def Scope.rename (scope : Scope) : Scope :=
  ⟨scope.schema.rename σ, scope.supply.rename σ⟩

namespace Definition

@[simp] theorem stamp_rename (d : Definition) : (d.rename σ).stamp = d.stamp.rename σ := by
  cases d; rfl

@[simp] theorem name_rename (d : Definition) : (d.rename σ).name = d.name := by
  cases d; rfl

@[simp] theorem reader_rename (d : Definition) : (d.rename σ).reader = d.reader := by
  cases d; rfl

@[simp] theorem group_rename (d : Definition) :
    (d.rename σ).group = d.group.map (Schema.rename σ) := by
  obtain ⟨_, _, _, _, _, _ | inner⟩ := d <;> rfl

@[simp] theorem isGroup_rename (d : Definition) : (d.rename σ).isGroup = d.isGroup := by
  rw [isGroup, isGroup, group_rename, Option.isSome_map]

@[simp] theorem resolve_rename (d : Definition) (given : Option Value) :
    (d.rename σ).resolve given = d.resolve given := by
  cases d; rfl

theorem build_rename (stamp : Stamp) (name : Option String) (fallback : Option Value)
    (construct : Constructor) (reader : Bool) (group : Option Schema) :
    build (stamp.rename σ) name fallback construct reader (group.map (Schema.rename σ)) =
      (build stamp name fallback construct reader group).map (rename σ) := by
  cases name with
  | none => rfl
  | some name =>
      simp only [build]
      split_ifs
      · cases group <;> rfl
      · rfl

theorem find?_rename (name : String) (ds : List Definition) :
    find? name (ds.map (rename σ)) = (find? name ds).map (rename σ) :=
  find?_map (name_rename σ) name ds

theorem insert_rename (d : Definition) (ds : List Definition) :
    (d.rename σ).insert (ds.map (rename σ)) = (d.insert ds).map (rename σ) :=
  insert_map (name_rename σ) d ds

end Definition

namespace Schema

theorem renameAll_eq (ds : List Definition) : renameAll σ ds = ds.map (Definition.rename σ) := by
  induction ds with
  | nil => rfl
  | cons d rest ih => rw [renameAll, ih, List.map_cons]

@[simp] theorem definitions_rename (s : Schema) :
    (s.rename σ).definitions = s.definitions.map (Definition.rename σ) := by
  cases s
  exact renameAll_eq σ _

@[simp] theorem frozen_rename (s : Schema) : (s.rename σ).frozen = s.frozen := by
  cases s; rfl

theorem rename_mk (ds : List Definition) (frozen : Bool) :
    (Schema.mk ds frozen).rename σ = ⟨ds.map (Definition.rename σ), frozen⟩ := by
  rw [rename, renameAll_eq]

/-- Renaming a schema changes its definitions one by one. -/
theorem rename_eq_mapped : rename σ = mapped (Definition.rename σ) :=
  funext fun ⟨ds, frozen⟩ => rename_mk σ ds frozen

@[simp] theorem lookup_rename (s : Schema) (name : String) :
    (s.rename σ).lookup name = (s.lookup name).map (Definition.rename σ) := by
  rw [lookup, lookup, definitions_rename, Definition.find?_rename]

@[simp] theorem names_rename (s : Schema) : (s.rename σ).names = s.names := by
  rw [names, names, definitions_rename, Definition.names_map (Definition.name_rename σ)]

theorem declare_rename (s : Schema) (d : Definition) :
    (s.rename σ).declare (d.rename σ) = (s.declare d).into (rename σ) := by
  rw [rename_eq_mapped]
  exact declare_mapped (Definition.name_rename σ) s d

theorem incorporate_rename (s other : Schema) :
    (s.rename σ).incorporate (other.rename σ) = (s.incorporate other).into (rename σ) := by
  rw [rename_eq_mapped]
  exact incorporate_mapped (Definition.name_rename σ) s other

end Schema

@[simp] theorem Declaration.label_rename (d : Declaration) : (d.rename σ).label = d.label := by
  cases d with
  | inclusion other => simp only [rename, label, Schema.names_rename]
  | setting | nested | group | unregistered => rfl

namespace Scope

theorem schema_rename (scope : Scope) : (scope.rename σ).schema = scope.schema.rename σ := rfl

theorem supply_rename (scope : Scope) : (scope.rename σ).supply = scope.supply.rename σ := rfl

theorem rename_mk (schema : Schema) (supply : Supply) :
    Scope.mk (schema.rename σ) (supply.rename σ) = (Scope.mk schema supply).rename σ := rfl

theorem leave_rename (scope : Scope) (attempt : Attempt Schema) (supply : Supply) :
    (scope.rename σ).leave (attempt.into (Schema.rename σ)) (supply.rename σ) =
      (scope.leave attempt supply).into (rename σ) := by
  obtain ⟨state, _ | fault⟩ := attempt <;> rfl

theorem add_rename (scope : Scope) (supply : Supply) (name : String) (options : Options)
    (group : Option Schema) :
    (scope.rename σ).add (supply.rename σ) name options (group.map (Schema.rename σ)) =
      (scope.add supply name options group).into (rename σ) := by
  have hbuild := Definition.build_rename σ supply.stamp (some name) options.fallback
    (options.construct.getD .identity) options.reader group
  unfold add
  rw [Supply.stamp_rename, hbuild]
  cases Definition.build supply.stamp (some name) options.fallback
      (options.construct.getD .identity) options.reader group with
  | error fault => rfl
  | ok d =>
      simp only [Except.map]
      rw [schema_rename, Schema.declare_rename]
      exact leave_rename σ scope (scope.schema.declare d) supply.advance

theorem incorporate_rename (scope : Scope) (supply : Supply) (other : Schema) :
    (scope.rename σ).incorporate (supply.rename σ) (other.rename σ) =
      (scope.incorporate supply other).into (rename σ) := by
  unfold incorporate
  rw [schema_rename, Schema.incorporate_rename]
  exact leave_rename σ scope (scope.schema.incorporate other) supply

theorem start_rename (supply : Supply) : (start supply).rename σ = start (supply.rename σ) := rfl

/-- A group is renamed by renaming what its block makes. -/
theorem nest_rename (scope : Scope) (name : String) (options : Options)
    {block block' : Scope → Attempt Scope}
    (h : ∀ inner, block' (inner.rename σ) = (block inner).into (rename σ)) :
    (scope.rename σ).nest name options block' =
      (scope.nest name options block).into (rename σ) := by
  unfold nest
  split_ifs
  · rfl
  · rfl
  · rw [supply_rename, ← start_rename, h, Attempt.toExcept_into]
    cases (block (start scope.supply)).toExcept with
    | error fault => rfl
    | ok inner => exact add_rename σ scope inner.supply name options (some inner.schema)

theorem takeIn_rename (scope : Scope) {script script' : Scope → Attempt Scope}
    (h : ∀ inner, script' (inner.rename σ) = (script inner).into (rename σ)) :
    (scope.rename σ).takeIn script' = (scope.takeIn script).into (rename σ) := by
  unfold takeIn
  rw [supply_rename, ← start_rename, h, Attempt.toExcept_into]
  cases (script (start scope.supply)).toExcept with
  | error fault => rfl
  | ok inner => exact incorporate_rename σ scope inner.supply inner.schema

mutual

/-- Statements of renamed schemas do the same under other authors. -/
theorem declare_rename : ∀ (scope : Scope) (d : Declaration),
    (scope.rename σ).declare (d.rename σ) = (scope.declare d).into (rename σ)
  | scope, .setting name options => by
      rw [Declaration.rename, declare, declare]
      exact add_rename σ scope scope.supply name options none
  | scope, .nested name options block => by
      rw [Declaration.rename, declare, declare]
      exact nest_rename σ scope name options fun inner => run_rename inner block
  | scope, .inclusion other => by
      rw [Declaration.rename, declare, declare]
      exact incorporate_rename σ scope scope.supply other
  | scope, .group name script => by
      rw [Declaration.rename, declare, declare]
      exact takeIn_rename σ scope fun inner => run_rename inner script
  | scope, .unregistered name => by
      rw [Declaration.rename, declare, declare]
      rfl

theorem run_rename : ∀ (scope : Scope) (ds : List Declaration),
    (scope.rename σ).run (Declaration.renameAll σ ds) = (scope.run ds).into (rename σ)
  | scope, [] => by
      rw [Declaration.renameAll, run, run]
      rfl
  | scope, d :: rest => by
      rw [Declaration.renameAll, run, run, declare_rename scope d]
      exact Attempt.into_andThen _ _ (run_rename _ rest)

end

end Scope
end SettingsTree
