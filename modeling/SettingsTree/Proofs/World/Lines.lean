import Mathlib.Tactic.SplitIfs
import SettingsTree.Proofs.World.Basic

/-!
# Lines of owners and instances

The line of an owner lists the calls on it, in their order, after the line that its
parent had when it was derived; an instance has the line of its owner and then the calls
on itself. Lines are read off the operations alone, without running them. Nothing else
that happens in a world is in them: no later call on a parent and none on siblings,
children or other instances.

The state of an object and every answer that it gave are functions of its line.
-/
namespace SettingsTree

/-- All that can be asked of a configuration: at every path, in every group and as a whole. -/
structure Config.View where
  value : Path → Except Fault Value
  names : List String → Except Fault (List String)
  frozen : List String → Except Fault Bool
  whole : Except Fault Value
  emission : Emission

def Config.view (c : Config) : Config.View where
  value := c.getAt
  names walk := (c.descend walk).map fun inner => inner.schema.names
  frozen walk := (c.descend walk).map Config.frozen
  whole := c.toValue
  emission := c.emission

/-- What only an owner can be asked. -/
structure Owner.Standing where
  settings : List String
  sharesParentSchema : Bool
  isConfigured : Bool

/-- All that can be asked of an owner or an instance. -/
structure View where
  owner : String
  readers : List String
  read : String → Except Fault Value
  config : Config.View
  standing : Option Owner.Standing

def Owner.view (o : Owner) : View where
  owner := o.name
  readers := o.readers
  read := readThrough o.readers o.config
  config := o.config.view
  standing := some ⟨o.schema.names, o.sharesParentSchema, o.isConfigured⟩

def Instance.view (i : Instance) : View where
  owner := i.owner
  readers := i.readers
  read := readThrough i.readers i.config
  config := i.config.view
  standing := none

def Object.view? : Object → Option View
  | owner o => some o.view
  | inst i => some i.view
  | schema _ | config _ => none

/-- An operation on an object that is there already. -/
inductive Call where
  | act (a : Act)
  | copy (k : Config.Copy)

namespace Call

/-- What the call does to the object itself. -/
def toAct : Call → Act
  | act a => a
  | copy _ => .look

/-- What a copy that is made from the object shows, or why there is none. -/
def made? (x : Object) : Call → Option (Except Fault Config.View)
  | act _ => none
  | copy k => x.config?.map fun c => (k.apply c).map Config.view

end Call

/-- The answer to a call, with all that can be asked of the object afterwards. -/
structure Reply where
  fault : Option Fault
  made : Option (Except Fault Config.View)
  view : View

namespace Object

def call (x : Object) (call : Call) : Object :=
  (x.act call.toAct).state

def greeting (x : Object) : List Reply :=
  x.view?.toList.map fun view => ⟨none, none, view⟩

def reply (x : Object) (call : Call) : List Reply :=
  (x.call call).view?.toList.map fun view => ⟨(x.act call.toAct).fault, call.made? x, view⟩

end Object

inductive Owner.Line where
  | founded (author : Nat) (name : String)
  | derived (parent : Owner.Line) (author : Nat) (name : String)
  | called (before : Owner.Line) (call : Call)

inductive Instance.Line where
  | spawned (owner : Owner.Line)
  | called (before : Instance.Line) (call : Call)

def Owner.Line.last : Owner.Line → Owner
  | founded author name => .new name author
  | derived parent author name => parent.last.derive name author
  | called before call => (before.last.act call.toAct).state

def Instance.Line.last : Instance.Line → Instance
  | spawned owner => owner.last.spawn.1
  | called before call => (before.last.act call.toAct).state

def Owner.Line.replies : Owner.Line → List Reply
  | founded author name => (Object.owner (.new name author)).greeting
  | derived parent author name => (Object.owner (parent.last.derive name author)).greeting
  | called before call => before.replies ++ (Object.owner before.last).reply call

def Instance.Line.replies : Instance.Line → List Reply
  | spawned owner => (Object.inst owner.last.spawn.1).greeting
  | called before call => before.replies ++ (Object.inst before.last).reply call

inductive Line where
  | owner (l : Owner.Line)
  | inst (l : Instance.Line)

namespace Line

def object : Line → Object
  | owner l => .owner l.last
  | inst l => .inst l.last

def call : Line → Call → Line
  | owner l, call => .owner (l.called call)
  | inst l, call => .inst (l.called call)

def replies : Line → List Reply
  | owner l => l.replies
  | inst l => l.replies

@[simp] theorem object_call (l : Line) (call : Call) :
    (l.call call).object = l.object.call call := by
  cases l <;> rfl

@[simp] theorem replies_call (l : Line) (call : Call) :
    (l.call call).replies = l.replies ++ l.object.reply call := by
  cases l <;> rfl

end Line

/-- The object that an operation is a call on. Spawning looks at the owner. -/
def Op.call? : Op → Option (Nat × Call)
  | .act k a => some (k, .act a)
  | .copy k making => some (k, .copy making)
  | .spawn k => some (k, .act .look)
  | .schema _ | .bind _ | .found _ | .derive _ _ => none

/-- The lines of all objects, and the number of operations so far. -/
structure Chronicle where
  lines : Nat → Option Line
  clock : Nat

namespace Chronicle

def empty : Chronicle := ⟨fun _ => none, 0⟩

/-- The line that an operation begins. -/
def begun? (h : Chronicle) : Op → Option Line
  | .found name => some (.owner (.founded h.clock name))
  | .derive parent name =>
      match h.lines parent with
      | some (.owner l) => some (.owner (.derived l h.clock name))
      | _ => none
  | .spawn k =>
      match h.lines k with
      | some (.owner l) => some (.inst (.spawned l))
      | _ => none
  | .schema _ | .bind _ | .copy _ _ | .act _ _ => none

/-- The line of an object that was there before the operation. -/
def continued? (h : Chronicle) (op : Op) (k : Nat) : Option Line :=
  match op.call? with
  | some (j, call) => if k = j then (h.lines k).map fun l => l.call call else h.lines k
  | none => h.lines k

def step (h : Chronicle) (op : Op) : Chronicle :=
  ⟨fun k => if k = h.clock then h.begun? op else h.continued? op k, h.clock + 1⟩

def after (h : Chronicle) (ops : List Op) : Chronicle :=
  ops.foldl step h

@[simp] theorem after_nil (h : Chronicle) : h.after [] = h := rfl

@[simp] theorem after_cons (h : Chronicle) (op : Op) (rest : List Op) :
    h.after (op :: rest) = (h.step op).after rest := rfl

theorem after_append (h : Chronicle) (first second : List Op) :
    h.after (first ++ second) = (h.after first).after second :=
  List.foldl_append

end Chronicle

namespace World

/-- The line of an object at the end of a run. -/
def line? (ops : List Op) (k : Nat) : Option Line :=
  (Chronicle.empty.after ops).lines k

/-- What an object replies to one operation in a world, if it is the object that the
operation makes or is a call on. -/
def replies (w : World) (k : Nat) (op : Op) : List Reply :=
  if k = w.clock then ((w.step op).held k).toList.flatMap Object.greeting
  else
    match op.call? with
    | some (j, call) =>
        if k = j then (w.held k).toList.flatMap fun x => x.reply call else []
    | none => []

/-- What an object replies in the course of some operations. -/
def answersTo (w : World) (k : Nat) : List Op → List Reply
  | [] => []
  | op :: rest => w.replies k op ++ (w.step op).answersTo k rest

theorem held_tick_of_ne {w : World} {k : Nat} (hk : k ≠ w.clock) (made : Option Object) :
    (w.tick made).held k = w.held k := if_neg hk

theorem held_put_tick {w : World} {k : Nat} (hk : k ≠ w.clock) (j : Nat) (x : Object)
    (made : Option Object) :
    ((w.put j x).tick made).held k = if k = j then some x else w.held k := if_neg hk

theorem held_of_called {w w' : World} {j k : Nat} {call : Call}
    (hsome : ∀ x, w.held j = some x →
      w'.held k = if k = j then some (x.call call) else w.held k)
    (hnone : w.held j = none → w'.held k = w.held k) :
    w'.held k = if k = j then (w.held k).map fun x => x.call call else w.held k := by
  cases hx : w.held j with
  | none =>
      rw [hnone hx]
      split_ifs with he
      · rw [he, hx, Option.map_none]
      · rfl
  | some x =>
      rw [hsome x hx]
      split_ifs with he
      · rw [he, hx, Option.map_some]
      · rfl

theorem held_step (w : World) (op : Op) {k : Nat} (hk : k ≠ w.clock) :
    (w.step op).held k =
      match op.call? with
      | some (j, call) => if k = j then (w.held k).map fun x => x.call call else w.held k
      | none => w.held k := by
  cases op with
  | schema | bind | found | derive => exact if_neg hk
  | act j a =>
      refine held_of_called (fun x hx => ?_) fun hx => ?_
      · simp only [step, hx, held_put_tick hk]
        rfl
      · simp only [step, hx, held_tick_of_ne hk]
  | copy j made =>
      refine held_of_called (fun x hx => ?_) fun hx => ?_
      · simp only [step, hx, held_put_tick hk]
        rfl
      · simp only [step, hx, held_tick_of_ne hk]
  | spawn j =>
      refine held_of_called (fun x hx => ?_) fun hx => ?_
      · cases x with
        | owner o =>
            simp only [step, hx, held_put_tick hk]
            rfl
        | schema | config | inst =>
            simp only [step, hx, held_tick_of_ne hk]
            split_ifs with he
            · rw [he, hx]
              rfl
            · rfl
      · simp only [step, hx, held_tick_of_ne hk]

/-- An operation leaves an object as it was or makes a call on it: its own, or a look. -/
theorem act_of_held_step {w : World} {op : Op} {k : Nat} {y : Object} (hk : k ≠ w.clock)
    (hy : (w.step op).held k = some y) :
    ∃ x, w.held k = some x ∧
      (y = x ∨ ∃ a, y = (x.act a).state ∧ (op = .act k a ∨ a = .look)) := by
  rw [held_step w op hk] at hy
  cases op with
  | schema | bind | found | derive => exact ⟨y, hy, .inl rfl⟩
  | act j a =>
      simp only [Op.call?] at hy
      split_ifs at hy with he
      · obtain ⟨x, hx, rfl⟩ := Option.map_eq_some_iff.1 hy
        exact ⟨x, hx, .inr ⟨a, rfl, .inl (by rw [he])⟩⟩
      · exact ⟨y, hy, .inl rfl⟩
  | spawn j | copy j =>
      simp only [Op.call?] at hy
      split_ifs at hy
      · obtain ⟨x, hx, rfl⟩ := Option.map_eq_some_iff.1 hy
        exact ⟨x, hx, .inr ⟨.look, rfl, .inr rfl⟩⟩
      · exact ⟨y, hy, .inl rfl⟩

/-- Objects do not disappear. -/
theorem exists_held_step {w : World} {k : Nat} {x : Object} (hx : w.held k = some x)
    (hk : k ≠ w.clock) (op : Op) : ∃ y, (w.step op).held k = some y := by
  rw [held_step w op hk, hx]
  cases op.call? with
  | none => exact ⟨x, rfl⟩
  | some called =>
      obtain ⟨j, call⟩ := called
      simp only
      split_ifs
      · exact ⟨x.call call, rfl⟩
      · exact ⟨x, rfl⟩

end World

/-- The chronicle knows every owner and every instance of the world. -/
structure Chronicle.Tells (h : Chronicle) (w : World) : Prop where
  clock : h.clock = w.clock
  later : ∀ k, w.clock ≤ k → w.held k = none
  known : ∀ k l, h.lines k = some l → w.held k = some l.object
  silent : ∀ k x, h.lines k = none → w.held k = some x → x.view? = none

theorem Object.view?_call {x : Object} (h : x.view? = none) (call : Call) :
    (x.call call).view? = none := by
  cases x with
  | schema | config => rfl
  | owner | inst => cases h

namespace Chronicle
variable {h : Chronicle} {w : World}

theorem tells_empty : empty.Tells .empty :=
  ⟨rfl, fun _ _ => rfl, fun _ _ hl => (nomatch hl), fun _ _ _ hx => nomatch hx⟩

theorem Tells.owner {k : Nat} {o : Owner} (ht : h.Tells w) (hk : w.held k = some (.owner o)) :
    ∃ l, h.lines k = some (.owner l) ∧ l.last = o := by
  cases hl : h.lines k with
  | none => cases ht.silent k _ hl hk
  | some l =>
      have hobject := Option.some.inj ((ht.known k l hl).symm.trans hk)
      cases l with
      | owner l => exact ⟨l, rfl, Object.owner.inj hobject⟩
      | inst l => cases hobject

theorem Tells.inst {k : Nat} {i : Instance} (ht : h.Tells w) (hk : w.held k = some (.inst i)) :
    ∃ l, h.lines k = some (.inst l) ∧ l.last = i := by
  cases hl : h.lines k with
  | none => cases ht.silent k _ hl hk
  | some l =>
      have hobject := Option.some.inj ((ht.known k l hl).symm.trans hk)
      cases l with
      | owner l => cases hobject
      | inst l => exact ⟨l, rfl, Object.inst.inj hobject⟩

theorem Tells.begun (ht : h.Tells w) {op : Op} {l : Line} (hl : h.begun? op = some l) :
    (w.step op).held w.clock = some l.object ∧ l.replies = l.object.greeting := by
  cases op with
  | schema | bind | copy | act => cases hl
  | found name =>
      obtain rfl := Option.some.inj hl
      refine ⟨?_, rfl⟩
      rw [World.step, World.held_tick, if_pos rfl, ← ht.clock]
      rfl
  | derive parent name =>
      simp only [begun?] at hl
      split at hl
      · next before hbefore =>
          obtain rfl := Option.some.inj hl
          refine ⟨?_, rfl⟩
          have hheld : w.held parent = some (.owner before.last) := ht.known parent _ hbefore
          rw [World.step, World.held_tick, if_pos rfl, World.derived?, hheld, ht.clock]
          rfl
      · cases hl
  | spawn k =>
      simp only [begun?] at hl
      split at hl
      · next before hbefore =>
          obtain rfl := Option.some.inj hl
          refine ⟨?_, rfl⟩
          have hheld : w.held k = some (.owner before.last) := ht.known k _ hbefore
          simp only [World.step, hheld]
          exact if_pos rfl
      · cases hl

/-- Where no line is begun there is no new owner and no new instance. -/
theorem Tells.not_begun (ht : h.Tells w) {op : Op} {x : Object} (hl : h.begun? op = none)
    (hx : (w.step op).held w.clock = some x) : x.view? = none := by
  cases op with
  | schema | bind =>
      rw [World.step, World.held_tick, if_pos rfl] at hx
      rw [← Option.some.inj hx]
      rfl
  | found => cases hl
  | derive parent name =>
      rw [World.step, World.held_tick, if_pos rfl, World.derived?] at hx
      split at hx
      · next o ho =>
          obtain ⟨l, hline, _⟩ := ht.owner ho
          simp only [begun?, hline] at hl
          cases hl
      · cases hx
  | spawn k =>
      simp only [World.step] at hx
      split at hx
      · next o ho =>
          obtain ⟨l, hline, _⟩ := ht.owner ho
          simp only [begun?, hline] at hl
          cases hl
      · rw [World.held_tick, if_pos rfl] at hx
        cases hx
  | copy k made =>
      simp only [World.step] at hx
      split at hx
      · rw [World.held_tick, if_pos (World.clock_put ..).symm] at hx
        obtain ⟨c, _, rfl⟩ := Option.map_eq_some_iff.1 hx
        rfl
      · rw [World.held_tick, if_pos rfl] at hx
        cases hx
  | act k a =>
      simp only [World.step] at hx
      split at hx
      · rw [World.held_tick, if_pos (World.clock_put ..).symm] at hx
        cases hx
      · rw [World.held_tick, if_pos rfl] at hx
        cases hx

theorem lines_step_of_ne {k : Nat} (hk : k ≠ h.clock) (op : Op) :
    (h.step op).lines k = h.continued? op k := if_neg hk

theorem lines_step_self (op : Op) : (h.step op).lines h.clock = h.begun? op := if_pos rfl

theorem Tells.step (ht : h.Tells w) (op : Op) : (h.step op).Tells (w.step op) := by
  refine ⟨?_, fun k hk => ?_, fun k l hl => ?_, fun k x hl hx => ?_⟩
  · rw [World.clock_step, ← ht.clock]
    rfl
  · rw [World.clock_step] at hk
    have hnone := ht.later k (by omega)
    rw [World.held_step w op (by omega), hnone]
    cases op.call? with
    | none => rfl
    | some called => exact ite_self _
  · by_cases hk : k = w.clock
    · rw [hk, ← ht.clock, lines_step_self] at hl
      rw [hk]
      exact (ht.begun hl).1
    · rw [lines_step_of_ne (ht.clock ▸ hk), continued?] at hl
      rw [World.held_step w op hk]
      cases hc : op.call? with
      | none =>
          rw [hc] at hl
          exact ht.known k l hl
      | some called =>
          obtain ⟨j, call⟩ := called
          simp only [hc] at hl ⊢
          split_ifs at hl ⊢
          · obtain ⟨before, hbefore, rfl⟩ := Option.map_eq_some_iff.1 hl
            rw [ht.known k before hbefore, Option.map_some, Line.object_call]
          · exact ht.known k l hl
  · by_cases hk : k = w.clock
    · rw [hk, ← ht.clock, lines_step_self] at hl
      exact ht.not_begun hl (hk ▸ hx)
    · rw [lines_step_of_ne (ht.clock ▸ hk), continued?] at hl
      rw [World.held_step w op hk] at hx
      cases hc : op.call? with
      | none =>
          simp only [hc] at hl hx
          exact ht.silent k x hl hx
      | some called =>
          obtain ⟨j, call⟩ := called
          simp only [hc] at hl hx
          split_ifs at hl hx
          · obtain ⟨before, hbefore, rfl⟩ := Option.map_eq_some_iff.1 hx
            rw [Option.map_eq_none_iff] at hl
            exact Object.view?_call (ht.silent k before hl hbefore) call
          · exact ht.silent k x hl hx

/-- All replies that the line of an object tells. -/
def replies (h : Chronicle) (k : Nat) : List Reply :=
  (h.lines k).toList.flatMap Line.replies

theorem Tells.replies_begun (ht : h.Tells w) (op : Op) :
    (h.step op).replies w.clock = h.replies w.clock ++ w.replies w.clock op := by
  have hbefore : h.lines w.clock = none := by
    cases hl : h.lines w.clock with
    | none => rfl
    | some l =>
        have hheld := ht.known _ l hl
        rw [ht.later _ (Nat.le_refl _)] at hheld
        cases hheld
  have hafter : (h.step op).lines w.clock = h.begun? op := by
    rw [← ht.clock]
    exact lines_step_self op
  rw [replies, replies, hbefore, hafter, World.replies, if_pos rfl]
  cases hl : h.begun? op with
  | some l =>
      obtain ⟨hheld, hreplies⟩ := ht.begun hl
      simp [hheld, hreplies]
  | none =>
      cases hx : (w.step op).held w.clock with
      | none => rfl
      | some x => simp [Object.greeting, ht.not_begun hl hx]

theorem Tells.replies_continued (ht : h.Tells w) (op : Op) {k : Nat} (hk : k ≠ w.clock) :
    (h.step op).replies k = h.replies k ++ w.replies k op := by
  rw [replies, replies, lines_step_of_ne (ht.clock ▸ hk), continued?, World.replies, if_neg hk]
  cases op.call? with
  | none => exact (List.append_nil _).symm
  | some called =>
      obtain ⟨j, call⟩ := called
      simp only
      split_ifs with he
      · cases hl : h.lines k with
        | some l => simp [ht.known k l hl]
        | none =>
            cases hx : w.held k with
            | none => rfl
            | some x => simp [Object.reply, Object.view?_call (ht.silent k x hl hx)]
      · exact (List.append_nil _).symm

/-- After some operations the lines tell the replies that there were before, and the answers
that were given since. -/
theorem Tells.after (ht : h.Tells w) (ops : List Op) :
    (h.after ops).Tells (w.after ops) ∧
      ∀ k, (h.after ops).replies k = h.replies k ++ w.answersTo k ops := by
  induction ops generalizing h w with
  | nil => exact ⟨ht, fun k => (List.append_nil _).symm⟩
  | cons op rest ih =>
      obtain ⟨htells, hreplies⟩ := ih (ht.step op)
      refine ⟨htells, fun k => ?_⟩
      have hstep : (h.step op).replies k = h.replies k ++ w.replies k op := by
        by_cases hk : k = w.clock
        · rw [hk]
          exact ht.replies_begun op
        · exact ht.replies_continued op hk
      rw [after_cons, hreplies k, hstep, World.answersTo, List.append_assoc]

/-- The calls on an object among some operations. -/
def callsOn (k : Nat) : List Op → List Call
  | [] => []
  | op :: rest =>
      match op.call? with
      | some (j, call) => if k = j then call :: callsOn k rest else callsOn k rest
      | none => callsOn k rest

/-- A line that is begun grows by the calls on its object and by nothing else. -/
theorem lines_after (ops : List Op) {k : Nat} (hk : k < h.clock) :
    (h.after ops).lines k = (h.lines k).map fun l => (callsOn k ops).foldl Line.call l := by
  induction ops generalizing h with
  | nil => simp [callsOn]
  | cons op rest ih =>
      rw [after_cons, ih (h := h.step op) (Nat.lt_succ_of_lt hk),
        lines_step_of_ne (Nat.ne_of_lt hk), continued?, callsOn]
      cases op.call? with
      | none => rfl
      | some called =>
          obtain ⟨j, call⟩ := called
          by_cases he : k = j
          · simp only [if_pos he, Option.map_map, List.foldl_cons]
            rfl
          · simp only [if_neg he]

end Chronicle

def Owner.Line.extend (l : Owner.Line) (calls : List Call) : Owner.Line :=
  calls.foldl called l

theorem Line.foldl_call_owner (l : Owner.Line) (calls : List Call) :
    calls.foldl Line.call (.owner l) = .owner (l.extend calls) := by
  induction calls generalizing l with
  | nil => rfl
  | cons call rest ih => exact ih (l.called call)

namespace World
variable {ops : List Op} {k : Nat} {o : Owner} {l : Owner.Line}

/-- The state of an owner or an instance is the one that its line ends with. -/
theorem held_of_line? {ops : List Op} {k : Nat} {l : Line} (hl : line? ops k = some l) :
    (empty.after ops).held k = some l.object :=
  (Chronicle.tells_empty.after ops).1.known k l hl

/-- Every answer that an object gives in a run is in its line. -/
theorem answersTo_eq_replies (ops : List Op) (k : Nat) :
    empty.answersTo k ops = (line? ops k).toList.flatMap Line.replies :=
  ((Chronicle.tells_empty.after ops).2 k).symm

theorem exists_line (hk : (empty.after ops).held k = some (.owner o)) :
    ∃ l, line? ops k = some (.owner l) ∧ l.last = o :=
  (Chronicle.tells_empty.after ops).1.owner hk

theorem exists_instance_line {i : Instance} (hk : (empty.after ops).held k = some (.inst i)) :
    ∃ l, line? ops k = some (.inst l) ∧ l.last = i :=
  (Chronicle.tells_empty.after ops).1.inst hk

theorem line?_foldl_call {l : Line} (hl : line? ops k = some l) (later : List Op) :
    line? (ops ++ later) k = some ((Chronicle.callsOn k later).foldl Line.call l) := by
  have htells := (Chronicle.tells_empty.after ops).1
  have hlt : k < (Chronicle.empty.after ops).clock := by
    rw [htells.clock]
    refine Nat.lt_of_not_le fun hle => ?_
    have hheld := held_of_line? hl
    rw [htells.later k hle] at hheld
    cases hheld
  rw [line?] at hl ⊢
  rw [Chronicle.after_append, Chronicle.lines_after later hlt, hl, Option.map_some]

/-- The line of an owner grows by the calls on it. -/
theorem line?_append (hl : line? ops k = some (.owner l)) (later : List Op) :
    line? (ops ++ later) k = some (.owner (l.extend (Chronicle.callsOn k later))) := by
  rw [line?_foldl_call hl, Line.foldl_call_owner]

theorem clock_chronicle (ops : List Op) : (Chronicle.empty.after ops).clock = ops.length := by
  rw [(Chronicle.tells_empty.after ops).1.clock, clock_after]
  exact Nat.zero_add _

theorem line?_begun {before : List Op} {op : Op} {l : Line}
    (hl : (Chronicle.empty.after before).begun? op = some l) :
    line? (before ++ [op]) before.length = some l := by
  rw [line?, Chronicle.after_append, Chronicle.after_cons, Chronicle.after_nil,
    ← clock_chronicle before, Chronicle.lines_step_self, hl]

theorem line?_derive {before : List Op} {k : Nat} {p : Owner.Line}
    (hp : line? before k = some (.owner p)) (name : String) :
    line? (before ++ [.derive k name]) before.length =
      some (.owner (.derived p before.length name)) := by
  rw [line?] at hp
  refine line?_begun ?_
  rw [Chronicle.begun?, hp, clock_chronicle]

theorem line?_spawn {before : List Op} {k : Nat} {p : Owner.Line}
    (hp : line? before k = some (.owner p)) :
    line? (before ++ [.spawn k]) before.length = some (.inst (.spawned p)) := by
  rw [line?] at hp
  refine line?_begun ?_
  rw [Chronicle.begun?, hp]

end World
end SettingsTree
