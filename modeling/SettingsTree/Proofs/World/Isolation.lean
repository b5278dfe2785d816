import SettingsTree.Constructor.Catalogue
import SettingsTree.Proofs.Renaming.Owner
import SettingsTree.Proofs.Renaming.Stage
import SettingsTree.Proofs.World.Lines

/-!
# Isolation of owners and instances

Two runs may differ in everything but the line of one owner or instance: in the calls on
other objects, in those on its ancestors after it was derived, and in the order in which
the objects take turns. The objects of the line then have other numbers in the other run,
and so have the authors of their definitions; a renaming takes the one line to the other.
No answer of the object tells the runs apart.
-/
namespace SettingsTree

section Rename
variable (σ : Nat → Nat)

def Call.rename : Call → Call
  | act a => .act (a.rename σ)
  | copy k => .copy (k.rename σ)

def Owner.Line.rename : Owner.Line → Owner.Line
  | founded author name => .founded (σ author) name
  | derived parent author name => .derived parent.rename (σ author) name
  | called before call => .called before.rename (call.rename σ)

def Instance.Line.rename : Instance.Line → Instance.Line
  | spawned owner => .spawned (owner.rename σ)
  | called before call => .called before.rename (call.rename σ)

def Line.rename : Line → Line
  | owner l => .owner (l.rename σ)
  | inst l => .inst (l.rename σ)

end Rename

/-- Nothing that can be asked of a configuration tells its authors. -/
theorem Config.view_rename (σ : Nat → Nat) (c : Config) : (c.rename σ).view = c.view := by
  have hvalue : (c.rename σ).getAt = c.getAt := funext (getAt_rename σ c)
  have hdescend := descend_rename σ c
  unfold view
  rw [hvalue, toValue_rename, emission_rename]
  congr 1
  · funext walk
    rw [hdescend]
    cases c.descend walk with
    | error fault => rfl
    | ok inner =>
        have hnames : (inner.rename σ).schema.names = inner.schema.names := by
          rw [schema_rename, Schema.names_rename]
        exact congrArg Except.ok hnames
  · funext walk
    rw [hdescend]
    cases c.descend walk with
    | error fault => rfl
    | ok inner => exact congrArg Except.ok (frozen_rename σ inner)

theorem readThrough_rename (σ : Nat → Nat) (readers : List String) (c : Config) :
    readThrough readers (c.rename σ) = readThrough readers c := by
  funext name
  rw [readThrough, readThrough, Config.value_rename]

theorem Instance.view_rename (σ : Nat → Nat) (i : Instance) : (i.rename σ).view = i.view := by
  unfold view
  rw [config_rename, readThrough_rename, Config.view_rename]
  rfl

theorem Call.toAct_rename (σ : Nat → Nat) (call : Call) :
    (call.rename σ).toAct = call.toAct.rename σ := by
  cases call <;> rfl

section Views
variable {σ : Nat → Nat} (hσ : σ.Injective)
include hσ

theorem Owner.view_rename (o : Owner) : (o.rename σ).view = o.view := by
  have hnames : (o.rename σ).schema.names = o.schema.names := Schema.names_rename σ o.schema
  have hbuilt : (o.rename σ).isConfigured = o.isConfigured := Option.isSome_map
  unfold view
  rw [config_rename hσ, hnames, hbuilt, readThrough_rename, Config.view_rename]
  rfl

namespace Object

theorem view?_rename (x : Object) : (x.rename σ).view? = x.view? := by
  cases x with
  | schema | config => rfl
  | owner o => exact congrArg some (Owner.view_rename hσ o)
  | inst i => exact congrArg some (Instance.view_rename σ i)

theorem call_rename (x : Object) (call : Call) :
    (x.rename σ).call (call.rename σ) = (x.call call).rename σ := by
  rw [Object.call, Object.call, Call.toAct_rename, act_rename hσ, Attempt.state_into]

theorem made?_rename (x : Object) (call : Call) :
    (call.rename σ).made? (x.rename σ) = call.made? x := by
  cases call with
  | act a => rfl
  | copy k =>
      simp only [Call.rename, Call.made?, config?_rename hσ, Option.map_map]
      congr 1
      funext c
      simp only [Function.comp_apply, Config.copy_rename hσ]
      cases k.apply c with
      | error fault => rfl
      | ok made => exact congrArg Except.ok (Config.view_rename σ made)

theorem greeting_rename (x : Object) : (x.rename σ).greeting = x.greeting := by
  rw [greeting, greeting, view?_rename hσ]

theorem reply_rename (x : Object) (call : Call) :
    (x.rename σ).reply (call.rename σ) = x.reply call := by
  rw [reply, reply, call_rename hσ, view?_rename hσ, made?_rename hσ, Call.toAct_rename,
    act_rename hσ, Attempt.fault_into]

end Object

theorem Owner.Line.last_rename (l : Owner.Line) : (l.rename σ).last = l.last.rename σ := by
  induction l with
  | founded author name => rfl
  | derived parent author name ih =>
      rw [rename, last, last, ih, Owner.derive_rename]
  | called before call ih =>
      rw [rename, last, last, ih, Call.toAct_rename, Owner.act_rename hσ, Attempt.state_into]

theorem Instance.Line.last_rename (l : Instance.Line) : (l.rename σ).last = l.last.rename σ := by
  induction l with
  | spawned owner => rw [rename, last, last, Owner.Line.last_rename hσ, Owner.spawn_rename hσ]
  | called before call ih =>
      rw [rename, last, last, ih, Call.toAct_rename, Instance.act_rename, Attempt.state_into]

theorem Owner.Line.replies_rename (l : Owner.Line) : (l.rename σ).replies = l.replies := by
  induction l with
  | founded author name => rfl
  | derived parent author name ih =>
      rw [rename, replies, replies, last_rename hσ, Owner.derive_rename]
      exact Object.greeting_rename hσ (.owner _)
  | called before call ih =>
      rw [rename, replies, replies, ih, last_rename hσ]
      exact congrArg _ (Object.reply_rename hσ (.owner before.last) call)

theorem Instance.Line.replies_rename (l : Instance.Line) : (l.rename σ).replies = l.replies := by
  induction l with
  | spawned owner =>
      rw [rename, replies, replies, Owner.Line.last_rename hσ, Owner.spawn_rename hσ]
      exact Object.greeting_rename hσ (.inst _)
  | called before call ih =>
      rw [rename, replies, replies, ih, last_rename hσ]
      exact congrArg _ (Object.reply_rename hσ (.inst before.last) call)

theorem Line.replies_rename (l : Line) : (l.rename σ).replies = l.replies := by
  cases l with
  | owner l => exact Owner.Line.replies_rename hσ l
  | inst l => exact Instance.Line.replies_rename hσ l

end Views

namespace World

/-- If an object has the same line in two runs, up to the numbers of the authors, then it
gives the same answers in both, from the first to the last. -/
theorem answersTo_eq_of_same_line {σ : Nat → Nat} (hσ : σ.Injective)
    {ops ops' : List Op} {k k' : Nat} (hline : line? ops' k' = (line? ops k).map (Line.rename σ)) :
    empty.answersTo k' ops' = empty.answersTo k ops := by
  rw [answersTo_eq_replies, answersTo_eq_replies, hline]
  cases line? ops k with
  | none => rfl
  | some l => simp [Line.replies_rename hσ l]

/-- A child takes in a schema from elsewhere, declares a reader and is assigned a value. -/
def secluded : List Op :=
  [.found "base", .act 0 (.declare (.setting "a" { construct := some .wrap })),
    .act 0 (.edit ⟨[], .set "a" .unit⟩), .derive 0 "child",
    .act 3 (.declare (.inclusion ⟨[⟨.declared 9 0, "b", none, .identity, false, none⟩], false⟩)),
    .act 3 (.declare (.setting "c" { fallback := some (.char 'c'), reader := true })), .spawn 3,
    .act 3 (.edit ⟨[], .set "b" (.bool true)⟩), .act 3 (.read "c")]

/-- The same, while the parent, a sibling, an instance and another owner are busy. -/
def crowded : List Op :=
  [.found "other", .found "base", .act 0 (.declare (.setting "a" {})),
    .act 1 (.declare (.setting "a" { construct := some .wrap })),
    .act 1 (.edit ⟨[], .set "a" .unit⟩), .derive 1 "sibling",
    .act 5 (.declare (.setting "c" {})), .derive 1 "child",
    .act 1 (.edit ⟨[], .set "a" (.bool false)⟩), .act 1 .finalize,
    .act 7 (.declare (.inclusion ⟨[⟨.declared 19 0, "b", none, .identity, false, none⟩], false⟩)),
    .act 5 (.edit ⟨[], .set "a" (.char 's')⟩), .derive 7 "grandchild",
    .act 7 (.declare (.setting "c" { fallback := some (.char 'c'), reader := true })), .spawn 7,
    .act 14 (.edit ⟨[], .set "b" .unit⟩), .act 7 (.edit ⟨[], .set "b" (.bool true)⟩),
    .act 12 (.edit ⟨[], .set "a" (.char 'g')⟩), .act 7 (.read "c")]

/-- The child is object 3 in one run and object 7 in the other, its parent 0 and 1. In both
runs `a` stays as the child inherited it. -/
theorem answersTo_crowded_eq_secluded :
    let σ : Nat → Nat := fun n => 2 * n + 1
    σ.Injective ∧ line? crowded 7 = (line? secluded 3).map (Line.rename σ) ∧
      empty.answersTo 7 crowded = empty.answersTo 3 secluded ∧
      (empty.answersTo 3 secluded).map (fun reply => reply.view.config.value ⟨[], "a"⟩) =
        List.replicate 6 (.ok (.seq [.unit])) := by
  intro σ
  have hσ : σ.Injective := by
    intro a b hab
    simp only [σ] at hab
    omega
  have hline : line? crowded 7 = (line? secluded 3).map (Line.rename σ) := rfl
  exact ⟨hσ, hline, answersTo_eq_of_same_line hσ hline, rfl⟩

end World
end SettingsTree
