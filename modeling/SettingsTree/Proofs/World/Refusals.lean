import SettingsTree.Proofs.Schema.Statements
import SettingsTree.Proofs.World.Omission

/-!
# Refused declarations

A refused statement leaves its scope as it was. An owner runs a statement on a copy of its
schema, so a refused call leaves the owner as it was, too: its schema and whether it shares it,
what it inherited, its readers and whether it is built. No answer that any object gives later
tells that the call was made.
-/
namespace SettingsTree.World

theorem step_refused {w : World} {k : Nat} {o : Owner} {d : Declaration} {fault : Fault}
    (hk : w.held k = some (.owner o)) (hf : (o.declare d).fault = some fault) :
    w.step (.act k (.declare d)) = w.tick none :=
  step_act_of_idle hk (congrArg Object.owner (Owner.declare_failed hf))

/-- Every declaration is all or nothing. A refused statement leaves its scope as it was, also
if it declares a group with a block, or takes in a registered script, that does whatever it
likes; and statements that go on after refused ones do what those of them do that go through.
A refused call on an owner leaves the owner and all other objects as they were, and all later
calls lead to the objects and answers to which they lead without it. -/
theorem declarations_all_or_nothing :
    (∀ (scope : Scope) (d : Declaration) (fault : Fault),
      (scope.declare d).fault = some fault → (scope.declare d).state = scope) ∧
    (∀ (scope : Scope) (name : String) (options : Options) (block : Scope → Attempt Scope)
      (fault : Fault), (scope.nest name options block).fault = some fault →
        (scope.nest name options block).state = scope) ∧
    (∀ (scope : Scope) (script : Scope → Attempt Scope) (fault : Fault),
      (scope.takeIn script).fault = some fault → (scope.takeIn script).state = scope) ∧
    (∀ (scope : Scope) (statements : List Declaration),
      scope.run (scope.accepted statements) = .done (scope.persist statements)) ∧
    (∀ (o : Owner) (label : String) (script : Scope → Attempt Scope) (fault : Fault),
      (o.compile label script).fault = some fault → (o.compile label script).state = o) ∧
    ∀ (ops : List Op) (k : Nat) (o : Owner) (d : Declaration) (fault : Fault),
      empty.Drawn ops → (empty.after ops).held k = some (.owner o) →
      (o.declare d).fault = some fault →
      let w := empty.after ops
      let refused := w.step (.act k (.declare d))
      (o.declare d).state = o ∧ (∀ j, j ≠ w.clock → refused.held j = w.held j) ∧
        ∀ later : List Op,
          let σ := shifted w.clock
          Renumbered σ (w.after later) (refused.after (later.map (Op.rename σ))) ∧
            ∀ j, refused.answersTo (σ j) (later.map (Op.rename σ)) = w.answersTo j later := by
  refine ⟨fun scope d fault => (Scope.ends_declare scope d).state_of_refused,
    fun scope name options block fault =>
      (Scope.ends_nest scope name options block).state_of_refused,
    fun scope script fault => (Scope.ends_takeIn scope script).state_of_refused,
    Scope.run_accepted, fun o label script fault => Owner.compile_failed,
    fun ops k o d fault hops hk hf => ?_⟩
  have hidle := step_refused hk hf
  refine ⟨Owner.declare_failed hf, fun j hj => ?_, fun later => ?_⟩
  · rw [hidle, held_tick_of_ne hj]
  · exact (contained_empty.after hops).after_idle hidle later

/-- A child that shares the schema of its parent. -/
def sharing : List Op :=
  [.found "base",
    .act 0 (.declare (.setting "a" { fallback := some (.char '1'), reader := true })),
    .derive 0 "child"]

/-- The fault is two blocks deep, after statements that go through. -/
def faulty : Declaration :=
  .nested "g" {} [.setting "x" {}, .nested "h" {} [.setting "y" {}, .unregistered "missing"]]

/-- The child declares a setting, and a child of it is assigned a value. -/
def continuing : List Op :=
  [.act 2 (.declare (.setting "b" { reader := true })), .derive 2 "grandchild",
    .act 4 (.edit ⟨[], .set "b" .unit⟩), .act 4 (.read "b")]

/-- After the refused call the child still shares the schema, and what is made later answers as
object 5 what it answers as object 4 without the call. Nor does a frozen copy of the schema take
in what it refuses. -/
theorem declarations_all_or_nothing_sharing :
    let w := empty.after sharing
    ∃ (o : Owner) (closed : Scope), (empty.Drawn sharing ∧ w.held 2 = some (.owner o) ∧
        (o.declare faulty).fault = some (.unknownGroup "missing")) ∧
      o.sharesParentSchema = true ∧ (o.declare faulty).state = o ∧
      (closed.schema = o.schema.freeze ∧
        (closed.declare (.inclusion o.schema)).fault = some (.frozenSchema "a") ∧
        (closed.declare (.inclusion o.schema)).state = closed) ∧
      (w.step (.act 2 (.declare faulty))).answersTo 5
        [.act 2 (.declare (.setting "b" { reader := true })), .derive 2 "grandchild",
          .act 5 (.edit ⟨[], .set "b" .unit⟩), .act 5 (.read "b")] =
        w.answersTo 4 continuing ∧
      (w.answersTo 4 continuing).map (fun reply => (reply.fault, reply.view.readers)) =
        List.replicate 3 (none, ["a", "b"]) := by
  have hops : empty.Drawn sharing := ⟨trivial, trivial, trivial, trivial⟩
  obtain ⟨o, hk, hf, hshares, hclosed⟩ : ∃ o, (empty.after sharing).held 2 = some (.owner o) ∧
      (o.declare faulty).fault = some (.unknownGroup "missing") ∧ o.sharesParentSchema = true ∧
      (Scope.declare ⟨o.schema.freeze, o.supply⟩ (.inclusion o.schema)).fault =
        some (.frozenSchema "a") :=
    ⟨_, rfl, rfl, rfl, rfl⟩
  obtain ⟨hscope, _, _, _, _, howner⟩ := declarations_all_or_nothing
  obtain ⟨hsame, _, hlater⟩ := howner sharing 2 o faulty _ hops hk hf
  exact ⟨o, _, ⟨hops, hk, hf⟩, hshares, hsame, ⟨rfl, hclosed, hscope _ _ _ hclosed⟩,
    (hlater continuing).2 4, rfl⟩

end SettingsTree.World
