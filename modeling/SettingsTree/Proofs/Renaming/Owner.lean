import SettingsTree.Proofs.Renaming.Config
import SettingsTree.Proofs.World.Basic

/-!
# Owners and instances under other authors

Calls carry authors where they carry schemas and configurations. A renamed call on a
renamed owner or instance has the same fault as before and leaves the renamed state.
-/
namespace SettingsTree

namespace Config
variable (σ : Nat → Nat)

/-- Only an action that hands over a configuration has authors in it. -/
def Action.rename : Action → Action
  | setConfig name other => .setConfig name (other.rename σ)
  | action => action

def Edit.rename (e : Edit) : Edit :=
  ⟨e.walk, e.action.rename σ⟩

theorem serialize_rename (c : Config) : (c.rename σ).serialize = c.serialize := by
  rw [serialize, serialize, emission_rename]

theorem apply_rename (c : Config) (action : Action) :
    (action.rename σ).apply (c.rename σ) = (action.apply c).into (rename σ) := by
  cases action with
  | set name raw => exact set_rename σ c name raw
  | setPath path raw => exact within_rename σ (fun c => set_rename σ c _ raw) _ c
  | setAs name shape raw =>
      simp only [Action.rename, Action.apply, setAs]
      cases raw.readAs shape with
      | ok v => exact set_rename σ c name v
      | error fault => rfl
  | setWide name n => rfl
  | setConfig name other =>
      simp only [Action.rename, Action.apply, setConfig, serialize_rename]
      cases other.serialize with
      | ok v => exact set_rename σ c name v
      | error fault => rfl
  | update batch => exact update_rename σ c batch
  | document text =>
      simp only [Action.rename, Action.apply, updateFromToml]
      cases Toml.read text with
      | some batch => exact update_rename σ c batch
      | none => rfl
  | finalize => exact congrArg Attempt.done (finalize_rename σ c)

theorem edit_rename (c : Config) (e : Edit) :
    (e.rename σ).apply (c.rename σ) = (e.apply c).into (rename σ) :=
  within_rename σ (fun c => apply_rename σ c e.action) e.walk c

theorem editAll_rename (c : Config) (edits : List Edit) :
    (c.rename σ).editAll (edits.map (Edit.rename σ)) = (c.editAll edits).into (rename σ) := by
  induction edits generalizing c with
  | nil => rfl
  | cons e rest ih =>
      rw [List.map_cons, editAll, editAll, edit_rename]
      exact Attempt.into_andThen _ _ (ih _)

theorem configure_rename {change change' : Config → Attempt Config}
    (h : ∀ c : Config, change' (c.rename σ) = (change c).into (rename σ)) (c : Config) :
    (c.rename σ).configure change' = (c.configure change).into (rename σ) := by
  unfold configure
  rw [h]
  exact Attempt.into_andThen _ _ (congrArg Attempt.done (finalize_rename σ _))

theorem replace_rename (c other : Config) (walk : List String) :
    ((c.rename σ).within walk fun _ => .done (other.rename σ)) =
      (c.within walk fun _ => .done other).into (rename σ) :=
  within_rename σ (fun _ => rfl) walk c

end Config

section Rename
variable (σ : Nat → Nat)

def Act.rename : Act → Act
  | declare d => .declare (d.rename σ)
  | edit e => .edit (e.rename σ)
  | replace walk other => .replace walk (other.rename σ)
  | configure edits => .configure (edits.map (Config.Edit.rename σ))
  | a => a

theorem Config.act_rename (c : Config) (a : Act) :
    (c.rename σ).act (a.rename σ) = (c.act a).into (rename σ) := by
  cases a with
  | edit e => exact edit_rename σ c e
  | replace walk other => exact replace_rename σ c other walk
  | configure edits =>
      simp only [Act.rename, act]
      exact configure_rename σ (editAll_rename σ · edits) c
  | finalize => exact congrArg Attempt.done (finalize_rename σ c)
  | declare | read | look => rfl

def Owner.rename (o : Owner) : Owner where
  name := o.name
  schema := o.schema.rename σ
  origin := o.origin
  inherited := o.inherited.map (Config.rename σ)
  built := o.built.map (Config.rename σ)
  readers := o.readers
  supply := o.supply.rename σ

def Instance.rename (i : Instance) : Instance :=
  { i with config := i.config.rename σ }

def Object.rename : Object → Object
  | schema s => .schema (s.rename σ)
  | config c => .config (c.rename σ)
  | owner o => .owner (o.rename σ)
  | inst i => .inst (i.rename σ)

end Rename

namespace Owner
variable (σ : Nat → Nat)

theorem derive_rename (o : Owner) (name : String) (author : Nat) :
    (o.rename σ).derive name (σ author) = (o.derive name author).rename σ := by
  obtain ⟨_, schema, origin, inherited, built, readers, supply⟩ := o
  have hcopy : ∀ c : Option Config,
      (c.map (Config.rename σ)).map Config.duplicate = (c.map Config.duplicate).map
        (Config.rename σ) := by
    rintro (_ | c)
    · rfl
    · exact congrArg some (Config.duplicate_rename σ c)
  cases built with
  | some c => simp only [derive, rename, current?, Option.map_some, Option.some_or,
      Config.duplicate_rename, Option.map_none, Supply.rename]
  | none => simp only [derive, rename, current?, Option.map_none, Option.none_or, hcopy,
      Supply.rename]

theorem collectReaders_rename (readers : List String) (s : Schema) :
    collectReaders readers (s.rename σ) = collectReaders readers s := by
  unfold collectReaders
  rw [Schema.definitions_rename]
  generalize s.definitions = ds
  induction ds generalizing readers with
  | nil => rfl
  | cons d rest ih =>
      rw [List.map_cons, List.filter_cons, List.filter_cons, Definition.reader_rename]
      split_ifs
      · rw [List.foldl_cons, List.foldl_cons, Definition.name_rename]
        exact ih _
      · exact ih _

variable {σ} (hσ : σ.Injective)
include hσ

theorem config_rename (o : Owner) : (o.rename σ).config = o.config.rename σ := by
  obtain ⟨_, schema, _, inherited, built, _, _⟩ := o
  cases built with
  | some c => rfl
  | none =>
      cases inherited with
      | some c => exact Config.rebind_rename hσ c schema
      | none => exact Config.fresh_rename σ schema

theorem build_rename (o : Owner) : (o.rename σ).build = o.build.rename σ := by
  unfold build
  rw [config_rename hσ]
  rfl

theorem edit_rename {change change' : Config → Attempt Config}
    (h : ∀ c : Config, change' (c.rename σ) = (change c).into (Config.rename σ)) (o : Owner) :
    (o.rename σ).edit change' = (o.edit change).into (rename σ) := by
  unfold edit
  rw [config_rename hσ, h]
  rfl

theorem compile_rename (o : Owner) (label : String) {script script' : Scope → Attempt Scope}
    (h : ∀ scope, script' (scope.rename σ) = (script scope).into (Scope.rename σ)) :
    (o.rename σ).compile label script' = (o.compile label script).into (rename σ) := by
  have hscope : script' ⟨(o.rename σ).schema, (o.rename σ).supply⟩ =
      (script ⟨o.schema, o.supply⟩).into (Scope.rename σ) := h ⟨o.schema, o.supply⟩
  have hbuilt : (o.rename σ).isConfigured = o.isConfigured := Option.isSome_map
  have hfrozen : (o.rename σ).schema.frozen = o.schema.frozen := Schema.frozen_rename σ o.schema
  unfold compile
  rw [hscope, hbuilt, hfrozen, Attempt.toExcept_into]
  by_cases hb : o.isConfigured = true
  · rw [if_pos hb, if_pos hb]
    rfl
  by_cases hz : o.schema.frozen = true
  · rw [if_neg hb, if_neg hb, if_pos hz, if_pos hz]
    rfl
  · rw [if_neg hb, if_neg hb, if_neg hz, if_neg hz]
    cases (script ⟨o.schema, o.supply⟩).toExcept with
    | error fault => rfl
    | ok scope =>
        have hrebind : ((o.inherited.map (Config.rename σ)).map
            fun c => c.rebind (scope.schema.rename σ)) =
              (o.inherited.map fun c => c.rebind scope.schema).map (Config.rename σ) := by
          cases o.inherited with
          | none => rfl
          | some c => exact congrArg some (Config.rebind_rename hσ c scope.schema)
        simp only [Except.map, Attempt.done, Attempt.into, rename, Scope.rename, hrebind,
          collectReaders_rename]
        rfl

theorem declare_rename (o : Owner) (d : Declaration) :
    (o.rename σ).declare (d.rename σ) = (o.declare d).into (rename σ) := by
  rw [declare, Declaration.label_rename]
  exact compile_rename hσ o d.label fun scope => Scope.declare_rename σ scope d

theorem act_rename (o : Owner) (a : Act) :
    (o.rename σ).act (a.rename σ) = (o.act a).into (rename σ) := by
  cases a with
  | declare d => exact declare_rename hσ o d
  | edit e => exact edit_rename hσ (Config.edit_rename σ · e) o
  | replace walk other =>
      simp only [Act.rename, act]
      exact edit_rename hσ (Config.replace_rename σ · other walk) o
  | configure edits =>
      simp only [Act.rename, act, configure]
      exact edit_rename hσ (Config.configure_rename σ (Config.editAll_rename σ · edits)) o
  | finalize =>
      simp only [Act.rename, act, finalize, config_rename hσ, Config.finalize_rename]
      rfl
  | read name =>
      have hread : ((o.rename σ).read name).1 = (o.read name).1 := by
        simp only [read, readThrough, config_build, config_rename hσ, Config.value_rename]
        rfl
      simp only [Act.rename, act, hread]
      exact congrArg (Attempt.mk · _) (build_rename hσ o)
  | look => exact congrArg Attempt.done (build_rename hσ o)

theorem spawn_rename (o : Owner) :
    (o.rename σ).spawn.1 = o.spawn.1.rename σ := by
  simp only [spawn, config_build, config_rename hσ, Config.duplicate_rename]
  rfl

end Owner

theorem Instance.config_rename (σ : Nat → Nat) (i : Instance) :
    (i.rename σ).config = i.config.rename σ := rfl

theorem Instance.act_rename (σ : Nat → Nat) (i : Instance) (a : Act) :
    (i.rename σ).act (a.rename σ) = (i.act a).into (rename σ) := by
  have hedit : ∀ {change change' : Config → Attempt Config},
      (∀ c : Config, change' (c.rename σ) = (change c).into (Config.rename σ)) →
        (i.rename σ).edit change' = (i.edit change).into (rename σ) := by
    intro change change' h
    unfold edit
    rw [config_rename, h]
    rfl
  cases a with
  | edit e => exact hedit (Config.edit_rename σ · e)
  | replace walk other =>
      simp only [Act.rename, act]
      exact hedit (Config.replace_rename σ · other walk)
  | configure edits =>
      simp only [Act.rename, act, configure]
      exact hedit (Config.configure_rename σ (Config.editAll_rename σ · edits))
  | finalize =>
      simp only [Act.rename, act, finalize, rename, Config.finalize_rename]
      rfl
  | read name =>
      have hread : (i.rename σ).read name = i.read name := by
        simp only [Instance.read, readThrough, rename, Config.value_rename]
      simp only [Act.rename, act, hread]
      rfl
  | declare | look => rfl

namespace Object
variable {σ : Nat → Nat} (hσ : σ.Injective)
include hσ

/-- A renamed call on a renamed object is the same call under other authors. -/
theorem act_rename (x : Object) (a : Act) :
    (x.rename σ).act (a.rename σ) = (x.act a).into (rename σ) := by
  cases x with
  | schema s => rfl
  | config c =>
      simp only [rename, act, Config.act_rename]
      rfl
  | owner o =>
      simp only [rename, act, Owner.act_rename hσ]
      rfl
  | inst i =>
      simp only [rename, act, Instance.act_rename]
      rfl

theorem config?_rename (x : Object) : (x.rename σ).config? = x.config?.map (Config.rename σ) := by
  cases x with
  | schema | config | inst => rfl
  | owner o => exact congrArg some (Owner.config_rename hσ o)

end Object
end SettingsTree
