import SettingsTree.Owner
import SettingsTree.Schema.Merge
import SettingsTree.Proofs.Config.Calls

/-!
# Worlds of owners, instances, configurations and schemas

A program holds any number of objects. Every operation either makes a new object or
changes one that is there, and takes one tick of the clock. An object is numbered by
the tick it was made in, and whoever declares definitions uses that number as the
author of their stamps, so no two supplies have one author.

A schema is a value, so a call that changes a schema in place is the same as making
the changed one. Schemas that an operation takes from elsewhere stand in it as they
are at that moment.
-/
namespace SettingsTree

/-- How a schema is made from others. -/
inductive Schema.Making where
  /-- Runs a script on it, up to the first statement that does not go through. -/
  | script (s : Schema) (statements : List Declaration)
  /-- Adds one definition that was built from its parts. -/
  | define (s : Schema) (name : Option String) (fallback : Option Value)
      (construct : Constructor) (reader : Bool) (group : Option Schema)
  | incorporate (s other : Schema)
  | merge (ours theirs : Schema)
  | exact (s : Schema)
  | duplicate (s : Schema)
  | freeze (s : Schema)

def Schema.Making.apply (author : Nat) : Schema.Making → Schema
  | script s statements => ((⟨s, { author }⟩ : Scope).run statements).state.schema
  | define s name fallback construct reader group =>
      match Definition.build (.declared author 0) name fallback construct reader group with
      | .ok d => (s.declare d).state
      | .error _ => s
  | incorporate s other => (s.incorporate other).state
  | merge ours theirs => ours.merge theirs
  | exact s => s
  | duplicate s => s.duplicate
  | freeze s => s.freeze

/-- A call on an owner, on an instance or on a configuration of its own. -/
inductive Act where
  /-- Only owners take declarations. -/
  | declare (d : Declaration)
  | edit (e : Config.Edit)
  /-- Puts another configuration in the place of the group at the end of a walk. -/
  | replace (walk : List String) (other : Config)
  | configure (edits : List Config.Edit)
  | finalize
  /-- Reads a setting by its name alone. -/
  | read (name : String)
  /-- Looks at the configuration, which is built for it. -/
  | look

def Except.fault? {α : Type} : Except Fault α → Option Fault
  | .ok _ => none
  | .error fault => some fault

theorem Except.eq_ok_of_toOption {ε α : Type} {result : Except ε α} {a : α}
    (h : result.toOption = some a) : result = .ok a := by
  cases result with
  | ok b => exact congrArg Except.ok (Option.some.inj h)
  | error fault => cases h

def Config.act (c : Config) : Act → Attempt Config
  | .edit e => e.apply c
  | .replace walk other => c.within walk fun _ => .done other
  | .configure edits => c.configure fun c => c.editAll edits
  | .finalize => .done c.finalize
  | .declare _ | .read _ | .look => .done c

def Owner.act (o : Owner) : Act → Attempt Owner
  | .declare d => o.declare d
  | .edit e => o.edit e.apply
  | .replace walk other => o.edit fun c => c.within walk fun _ => .done other
  | .configure edits => o.configure fun c => c.editAll edits
  | .finalize => .done o.finalize
  | .read name => ⟨(o.read name).2, Except.fault? (o.read name).1⟩
  | .look => .done o.build

def Instance.act (i : Instance) : Act → Attempt Instance
  | .edit e => i.edit e.apply
  | .replace walk other => i.edit fun c => c.within walk fun _ => .done other
  | .configure edits => i.configure fun c => c.editAll edits
  | .finalize => .done i.finalize
  | .read name => ⟨i, Except.fault? (i.read name)⟩
  | .declare _ | .look => .done i

inductive Object where
  | schema (s : Schema)
  | config (c : Config)
  | owner (o : Owner)
  | inst (i : Instance)

namespace Object

def act : Object → Act → Attempt Object
  | schema s, _ => .done (.schema s)
  | config c, a => (c.act a).into .config
  | owner o, a => (o.act a).into .owner
  | inst i, a => (i.act a).into .inst

/-- The configuration that is read through the object. -/
def config? : Object → Option Config
  | schema _ => none
  | config c => some c
  | owner o => some o.config
  | inst i => some i.config

end Object

/-- One operation of a program. The numbers are those of objects. -/
inductive Op where
  | schema (making : Schema.Making)
  | bind (s : Schema)
  | found (name : String)
  | derive (parent : Nat) (name : String)
  | spawn (owner : Nat)
  /-- Makes a configuration of its own from the one that is read through an object. -/
  | copy (k : Nat) (copy : Config.Copy)
  | act (k : Nat) (a : Act)

/-- The objects that a program holds, and the number of operations so far. -/
structure World where
  held : Nat → Option Object
  clock : Nat

namespace World

def empty : World := ⟨fun _ => none, 0⟩

def put (w : World) (k : Nat) (x : Object) : World :=
  { w with held := fun j => if j = k then some x else w.held j }

/-- Ends an operation that made the given object, if it made one. -/
def tick (w : World) (made : Option Object) : World :=
  ⟨fun j => if j = w.clock then made else w.held j, w.clock + 1⟩

def derived? (w : World) (parent : Nat) (name : String) : Option Object :=
  match w.held parent with
  | some (.owner o) => some (.owner (o.derive name w.clock))
  | _ => none

def step (w : World) : Op → World
  | .schema making => w.tick (some (.schema (making.apply w.clock)))
  | .bind s => w.tick (some (.config (.fresh s)))
  | .found name => w.tick (some (.owner (.new name w.clock)))
  | .derive parent name => w.tick (w.derived? parent name)
  | .spawn k =>
      match w.held k with
      | some (.owner o) => (w.put k (.owner o.spawn.2)).tick (some (.inst o.spawn.1))
      | _ => w.tick none
  | .copy k copy =>
      match w.held k with
      | some x =>
          (w.put k (x.act .look).state).tick
            ((x.config?.bind fun c => (copy.apply c).toOption).map .config)
      | none => w.tick none
  | .act k a =>
      match w.held k with
      | some x => (w.put k (x.act a).state).tick none
      | none => w.tick none

def after (w : World) (ops : List Op) : World :=
  ops.foldl step w

@[simp] theorem after_nil (w : World) : w.after [] = w := rfl

@[simp] theorem after_cons (w : World) (op : Op) (rest : List Op) :
    w.after (op :: rest) = (w.step op).after rest := rfl

theorem held_put (w : World) (k j : Nat) (x : Object) :
    (w.put k x).held j = if j = k then some x else w.held j := rfl

theorem held_tick (w : World) (made : Option Object) (j : Nat) :
    (w.tick made).held j = if j = w.clock then made else w.held j := rfl

@[simp] theorem clock_put (w : World) (k : Nat) (x : Object) : (w.put k x).clock = w.clock := rfl

@[simp] theorem clock_tick (w : World) (made : Option Object) :
    (w.tick made).clock = w.clock + 1 := rfl

@[simp] theorem clock_step (w : World) (op : Op) : (w.step op).clock = w.clock + 1 := by
  cases op with
  | schema | bind | found | derive => rfl
  | spawn k =>
      rw [step]
      split <;> rfl
  | copy k copy =>
      rw [step]
      split <;> rfl
  | act k a =>
      rw [step]
      split <;> rfl

theorem after_append (w : World) (first second : List Op) :
    w.after (first ++ second) = (w.after first).after second :=
  List.foldl_append

theorem clock_after (w : World) (ops : List Op) : (w.after ops).clock = w.clock + ops.length := by
  induction ops generalizing w with
  | nil => rfl
  | cons op rest ih =>
      rw [after_cons, ih, clock_step, List.length_cons]
      omega

end World
end SettingsTree
