import SettingsTree.Proofs.Schema.Depth
import SettingsTree.Schema.Script

/-!
# What a statement can do

A statement is refused and leaves its scope as it was, or it adds one definition, or it takes in
the definitions of another schema. However deep in its block or in a registered script the fault
is, nothing of it reaches the scope around it: blocks and registered scripts are run over
schemas of their own. A block may also do other things than run a script: look at its scope, go
on after a refused statement, or give up by itself.

As long as the schema is not frozen, only what is wrong with a statement itself is a reason to
refuse it.
-/
namespace SettingsTree

theorem Definition.nodup_insertAll (theirs : List Definition) {ours : List Definition}
    (h : (ours.map name).Nodup) : ((insertAll theirs ours).map name).Nodup := by
  induction theirs generalizing ours with
  | nil => exact h
  | cons d rest ih => exact ih (nodup_insert d h)

namespace Schema
variable {s other : Schema}

/-- An open schema takes every definition. -/
theorem declare_of_unfrozen (hs : s.frozen = false) (d : Definition) :
    s.declare d = .done { s with definitions := d.insert s.definitions } :=
  if_neg (Bool.eq_false_iff.1 hs)

/-- A frozen schema refuses every definition and stays as it was. -/
theorem declare_of_frozen (hs : s.frozen = true) (d : Definition) :
    s.declare d = .failed s (.frozenSchema d.name) :=
  if_pos hs

theorem incorporate_of_allowed (h : s.frozen = false ∨ other.definitions = []) :
    s.incorporate other =
      .done { s with definitions := Definition.insertAll other.definitions s.definitions } := by
  obtain ⟨ours, frozen⟩ := s
  obtain ⟨theirs, mark⟩ := other
  rcases h with h | h
  · obtain rfl : frozen = false := h
    rfl
  · obtain rfl : theirs = [] := h
    cases frozen <;> rfl

theorem incorporate_of_unfrozen (hs : s.frozen = false) (other : Schema) :
    s.incorporate other =
      .done { s with definitions := Definition.insertAll other.definitions s.definitions } :=
  incorporate_of_allowed (.inl hs)

/-- A frozen schema takes in none of several definitions and stays as it was. -/
theorem incorporate_cons_of_frozen (hs : s.frozen = true) {first : Definition}
    {rest : List Definition} (ho : other.definitions = first :: rest) :
    s.incorporate other = .failed s (.frozenSchema first.name) := by
  rw [incorporate, hs, ho]

theorem incorporate_of_not_allowed (h : ¬(s.frozen = false ∨ other.definitions = [])) :
    ∃ fault, s.incorporate other = .failed s fault := by
  rw [not_or, Bool.not_eq_false] at h
  obtain ⟨first, rest, hother⟩ := List.exists_cons_of_ne_nil h.2
  exact ⟨_, incorporate_cons_of_frozen h.1 hother⟩

end Schema

/-- What can be wrong with a statement itself, wherever it stands. -/
inductive Fault.Misstated : Fault → Prop where
  | name (name : String) : Misstated (.invalidName name)
  | options (name : String) : Misstated (.groupOptions name)
  | unregistered (name : String) : Misstated (.unknownGroup name)

namespace Scope

/-- All that a statement can make of a scope. -/
inductive Ends (scope : Scope) : Attempt Scope → Prop where
  | refused (fault : Fault) : Ends scope (.failed scope fault)
  | added (d : Definition) (supply : Supply) (named : isIdentifier d.name = true)
      (unfrozen : scope.schema.frozen = false) :
      Ends scope (.done ⟨⟨d.insert scope.schema.definitions, false⟩, supply⟩)
  | tookIn (other : Schema) (supply : Supply)
      (allowed : scope.schema.frozen = false ∨ other.definitions = []) :
      Ends scope (.done ⟨⟨Definition.insertAll other.definitions scope.schema.definitions,
        scope.schema.frozen⟩, supply⟩)

variable {scope : Scope} {d : Declaration} {attempt : Attempt Scope} {fault : Fault}

theorem Ends.state_of_refused (h : scope.Ends attempt) (hf : attempt.fault = some fault) :
    attempt.state = scope := by
  cases h with
  | refused fault => rfl
  | added | tookIn => cases hf

theorem Ends.nodup (h : scope.Ends attempt) (hs : scope.schema.names.Nodup) :
    attempt.state.schema.names.Nodup := by
  cases h with
  | refused fault => exact hs
  | added d supply named unfrozen => exact Definition.nodup_insert d hs
  | tookIn other supply allowed => exact Definition.nodup_insertAll other.definitions hs

theorem Ends.frozen_eq (h : scope.Ends attempt) :
    attempt.state.schema.frozen = scope.schema.frozen := by
  cases h with
  | refused fault => rfl
  | added d supply named unfrozen => exact unfrozen.symm
  | tookIn other supply allowed => rfl

theorem ends_add (scope : Scope) (supply : Supply) (name : String) (options : Options)
    (group : Option Schema) : scope.Ends (scope.add supply name options group) := by
  unfold add
  split
  · exact .refused _
  · next d hbuild =>
      obtain ⟨_, _, hname⟩ := Definition.build_ok hbuild
      cases hfrozen : scope.schema.frozen with
      | true =>
          rw [Schema.declare_of_frozen hfrozen]
          exact .refused _
      | false =>
          rw [Schema.declare_of_unfrozen hfrozen, hfrozen]
          exact .added d _ hname hfrozen

theorem ends_incorporate (scope : Scope) (supply : Supply) (other : Schema) :
    scope.Ends (scope.incorporate supply other) := by
  unfold incorporate
  by_cases allowed : scope.schema.frozen = false ∨ other.definitions = []
  · rw [Schema.incorporate_of_allowed allowed]
    exact .tookIn other supply allowed
  · obtain ⟨fault, hrefused⟩ := Schema.incorporate_of_not_allowed allowed
    rw [hrefused]
    exact .refused fault

/-- Whatever the block does, it does it elsewhere. -/
theorem nest_cases (scope : Scope) (name : String) (options : Options)
    (block : Scope → Attempt Scope) :
    (∃ fault, scope.nest name options block = .failed scope fault) ∨
      ∃ inner, block (start scope.supply) = .done inner ∧ scope.nest name options block =
        scope.add inner.supply name options (some inner.schema) := by
  unfold nest
  split_ifs
  · exact .inl ⟨_, rfl⟩
  · exact .inl ⟨_, rfl⟩
  · cases hblock : (block (start scope.supply)).toExcept with
    | error fault => exact .inl ⟨fault, rfl⟩
    | ok inner => exact .inr ⟨inner, Attempt.toExcept_eq_ok.1 hblock, rfl⟩

theorem takeIn_cases (scope : Scope) (script : Scope → Attempt Scope) :
    (∃ fault, scope.takeIn script = .failed scope fault) ∨
      ∃ inner, script (start scope.supply) = .done inner ∧
        scope.takeIn script = scope.incorporate inner.supply inner.schema := by
  unfold takeIn
  cases hscript : (script (start scope.supply)).toExcept with
  | error fault => exact .inl ⟨fault, rfl⟩
  | ok inner => exact .inr ⟨inner, Attempt.toExcept_eq_ok.1 hscript, rfl⟩

theorem ends_nest (scope : Scope) (name : String) (options : Options)
    (block : Scope → Attempt Scope) : scope.Ends (scope.nest name options block) := by
  rcases nest_cases scope name options block with ⟨fault, hrefused⟩ | ⟨inner, _, hadded⟩
  · rw [hrefused]
    exact .refused fault
  · rw [hadded]
    exact ends_add scope inner.supply name options _

theorem ends_takeIn (scope : Scope) (script : Scope → Attempt Scope) :
    scope.Ends (scope.takeIn script) := by
  rcases takeIn_cases scope script with ⟨fault, hrefused⟩ | ⟨inner, _, htaken⟩
  · rw [hrefused]
    exact .refused fault
  · rw [htaken]
    exact ends_incorporate scope inner.supply inner.schema

theorem ends_declare (scope : Scope) (d : Declaration) : scope.Ends (scope.declare d) := by
  cases d with
  | setting name options =>
      rw [declare]
      exact ends_add scope scope.supply name options none
  | nested name options block =>
      rw [declare]
      exact ends_nest scope name options fun inner => run inner block
  | inclusion other =>
      rw [declare]
      exact ends_incorporate scope scope.supply other
  | group name script =>
      rw [declare]
      exact ends_takeIn scope fun inner => run inner script
  | unregistered name =>
      rw [declare]
      exact .refused _

/-- The scope after statements that are run one after the other, refused ones too. -/
def persist (scope : Scope) (statements : List Declaration) : Scope :=
  statements.foldl (fun scope d => (scope.declare d).state) scope

/-- The statements among them that go through. -/
def accepted (scope : Scope) : List Declaration → List Declaration
  | [] => []
  | d :: rest =>
      match (scope.declare d).fault with
      | none => d :: accepted (scope.declare d).state rest
      | some _ => accepted scope rest

theorem run_accepted (scope : Scope) (statements : List Declaration) :
    scope.run (scope.accepted statements) = .done (scope.persist statements) := by
  induction statements generalizing scope with
  | nil =>
      rw [accepted, run]
      rfl
  | cons d rest ih =>
      have hpersist : scope.persist (d :: rest) = (scope.declare d).state.persist rest := rfl
      rw [accepted, hpersist]
      cases hf : (scope.declare d).fault with
      | none => rw [run, Attempt.andThen_of_fault_eq_none hf, ih]
      | some fault => rw [(ends_declare scope d).state_of_refused hf, ih]

theorem misstated_add (hopen : scope.schema.frozen = false) {supply : Supply} {name : String}
    {options : Options} {group : Option Schema}
    (hf : (scope.add supply name options group).fault = some fault) : fault.Misstated := by
  unfold add Definition.build at hf
  by_cases hname : isIdentifier name = true
  · simp only [if_pos hname, Schema.declare_of_unfrozen hopen] at hf
    cases hf
  · simp only [if_neg hname] at hf
    obtain rfl := Option.some.inj hf
    exact .name name

theorem incorporate_of_unfrozen (hopen : scope.schema.frozen = false) (supply : Supply)
    (other : Schema) : scope.incorporate supply other = .done
      ⟨⟨Definition.insertAll other.definitions scope.schema.definitions, scope.schema.frozen⟩,
        supply⟩ := by
  rw [incorporate, Schema.incorporate_of_unfrozen hopen]
  rfl

theorem misstated_nest (hopen : scope.schema.frozen = false) {name : String} {options : Options}
    {block : Scope → Attempt Scope}
    (hblock : ∀ cause, (block (start scope.supply)).fault = some cause → cause.Misstated)
    (hf : (scope.nest name options block).fault = some fault) : fault.Misstated := by
  unfold nest at hf
  split_ifs at hf
  · exact Option.some.inj hf ▸ .name name
  · exact Option.some.inj hf ▸ .options name
  · split at hf
    · next cause hcause =>
        obtain rfl : cause = fault := Option.some.inj hf
        exact hblock cause (Attempt.toExcept_eq_error.1 hcause)
    · exact misstated_add hopen hf

mutual

/-- On a schema that is not frozen only a statement that is wrong in itself is refused. -/
theorem misstated_declare : ∀ {scope : Scope} {fault : Fault} (d : Declaration),
    scope.schema.frozen = false → (scope.declare d).fault = some fault → fault.Misstated
  | scope, fault, .setting name options, hopen, hf => by
      rw [declare] at hf
      exact misstated_add hopen hf
  | scope, fault, .nested name options block, hopen, hf => by
      rw [declare] at hf
      exact misstated_nest hopen (fun _ hcause => misstated_run block rfl hcause) hf
  | scope, fault, .inclusion other, hopen, hf => by
      rw [declare, incorporate_of_unfrozen hopen] at hf
      cases hf
  | scope, fault, .group name script, hopen, hf => by
      rw [declare, takeIn] at hf
      split at hf
      · next cause hcause =>
          obtain rfl : cause = fault := Option.some.inj hf
          exact misstated_run script rfl (Attempt.toExcept_eq_error.1 hcause)
      · rw [incorporate_of_unfrozen hopen] at hf
        cases hf
  | scope, fault, .unregistered name, _, hf => by
      rw [declare] at hf
      exact Option.some.inj hf ▸ .unregistered name

theorem misstated_run : ∀ {scope : Scope} {fault : Fault} (statements : List Declaration),
    scope.schema.frozen = false → (scope.run statements).fault = some fault → fault.Misstated
  | scope, fault, [], _, hf => by
      rw [run] at hf
      cases hf
  | scope, fault, d :: rest, hopen, hf => by
      rw [run] at hf
      cases hd : (scope.declare d).fault with
      | none =>
          rw [Attempt.andThen_of_fault_eq_none hd] at hf
          exact misstated_run rest ((ends_declare scope d).frozen_eq.trans hopen) hf
      | some cause =>
          rw [Attempt.andThen_of_fault_eq_some hd, hd] at hf
          exact Option.some.inj hf ▸ misstated_declare d hopen hd

end

end Scope
end SettingsTree
