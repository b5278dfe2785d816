import Mathlib.Data.List.Induction
import SettingsTree.Proofs.World.Lines
import SettingsTree.Proofs.World.Stamps

/-!
# What becomes of inherited values

An owner is open until its configuration is built, and only declarations change an open
owner. Each one that goes through rebinds the configuration. So a derived owner reads at
a single setting what its parent read when it was derived, if that very definition stood
there all the time since, and the default of the definition in every other case: a
definition that was given up and taken back brings no value with it. This is so as long as
what the parent had was bound to the schema of the parent.
-/
namespace SettingsTree

open Config

namespace Owner
variable {heap : Heap} {o : Owner} {d : Declaration}

namespace Fitting

theorem derive (h : o.Fitting) (name : String) (author : Nat) : (o.derive name author).Fitting := by
  intro c hc
  obtain ⟨held, hheld, rfl⟩ := exists_of_current_derive hc
  obtain ⟨hs, hp, hw⟩ := h held hheld
  rw [schema_duplicate]
  exact ⟨hs, hp, hw.shaped.duplicate, hw.ordered.duplicate⟩

theorem config_derive (h : o.Fitting) (name : String) (author : Nat) :
    (o.derive name author).config = o.config.duplicate := by
  have hchild := current_derive o name author
  cases hc : o.current? with
  | some c =>
      rw [hc, Option.map_some] at hchild
      rw [(h.derive name author).config_of_current hchild, h.config_of_current hc]
  | none =>
      rw [hc, Option.map_none] at hchild
      rw [config_eq, hchild, config_eq, hc]
      exact (duplicate_fresh o.schema).symm

theorem config (h : o.Fitting) (hs : o.schema.Proper) :
    o.config.schema = o.schema ∧ o.config.WellFormed := by
  cases hc : o.current? with
  | some c =>
      rw [h.config_of_current hc]
      exact ⟨(h c hc).1, (h c hc).2.2⟩
  | none =>
      rw [config_eq, hc]
      exact ⟨schema_fresh o.schema, wellFormed_fresh hs⟩

/-- A declaration that goes through rebinds what the owner reads. -/
theorem declare (h : o.Fitting) (hf : (o.declare d).fault = none)
    (hs : (o.declare d).state.schema.Proper) :
    (o.declare d).state.Fitting ∧
      (o.declare d).state.config = o.config.rebind (o.declare d).state.schema := by
  obtain ⟨hb, scope, _, hstate⟩ := declare_done hf
  have hcurrent : o.current? = o.inherited := by simp [current?, hb]
  have hafter : (o.declare d).state.current? =
      o.current?.map (Config.rebind · (o.declare d).state.schema) := by
    rw [hcurrent, hstate, current?, hb]
    rfl
  have hfits : (o.declare d).state.Fitting := by
    intro c hc
    rw [hafter] at hc
    obtain ⟨old, _, rfl⟩ := Option.map_eq_some_iff.1 hc
    rw [schema_rebind]
    exact ⟨rfl, hs, shaped_rebind hs old, ordered_rebind old _⟩
  refine ⟨hfits, ?_⟩
  cases hc : o.current? with
  | some c =>
      rw [hc, Option.map_some] at hafter
      rw [hfits.config_of_current hafter, h.config_of_current hc]
  | none =>
      rw [hc, Option.map_none] at hafter
      rw [config_eq, hafter, config_eq, hc]
      exact (rebind_fresh o.schema _).symm

/-- What a declaration that goes through makes of a value, if all definitions before and after
it stand in one heap: it stays where the definition stood before, and otherwise it is the
default. -/
theorem getAt_declare {path : Path} {e : Definition} (h : o.Fitting)
    (hf : (o.declare d).fault = none) (hold : o.schema.StandsIn heap)
    (hnew : (o.declare d).state.schema.StandsIn heap)
    (he : (o.declare d).state.schema.at? path = some e) (hg : e.group = none) :
    (o.schema.at? path = some e →
        (o.declare d).state.config.getAt path = o.config.getAt path) ∧
      (o.schema.at? path ≠ some e →
        (o.declare d).state.config.getAt path = e.resolve none) := by
  obtain ⟨hschema, hw⟩ := h.config hold.proper
  rw [(h.declare hf hnew.proper).2, ← hschema]
  refine hw.shaped.getAt_rebind hnew.proper he hg fun before hb hgb hstamp => ?_
  rw [hschema] at hb
  exact (hold.at? hb).eq_of_stamp (hnew.at? he) hgb hg hstamp

end Fitting

theorem act_open {a : Act} (h : (o.act a).state.isConfigured = false) : ∃ d, a = .declare d := by
  by_contra hne
  rw [o.state_act fun d he => hne ⟨d, he⟩] at h
  cases h

end Owner

theorem Op.eq_of_declares {op : Op} {j : Nat} {call : Call} {d : Declaration}
    (hc : op.call? = some (j, call)) (hd : call.toAct = .declare d) :
    op = .act j (.declare d) := by
  cases op with
  | act i a =>
      obtain ⟨rfl, rfl⟩ := Prod.mk.inj (Option.some.inj hc)
      exact congrArg (Op.act i) hd
  | copy | spawn =>
      obtain ⟨rfl, rfl⟩ := Prod.mk.inj (Option.some.inj hc)
      cases hd
  | schema | bind | found | derive => cases hc

namespace World
variable {w : World} {k : Nat} {o o' : Owner} {path : Path} {d : Definition}

theorem held_owner_inj (h : w.held k = some (.owner o)) (h' : w.held k = some (.owner o')) :
    o = o' :=
  Object.owner.inj (Option.some.inj (h.symm.trans h'))

/-- An operation that leaves an owner open leaves it as it was, or is a declaration on it
that goes through. -/
theorem open_step {op : Op} (hk : k ≠ w.clock) (ho : (w.step op).held k = some (.owner o'))
    (hopen : o'.isConfigured = false) :
    ∃ o, w.held k = some (.owner o) ∧ (o' = o ∨ ∃ d, op = .act k (.declare d) ∧
      (o.declare d).fault = none ∧ (o.declare d).state = o') := by
  rw [held_step w op hk] at ho
  cases hc : op.call? with
  | none =>
      rw [hc] at ho
      exact ⟨o', ho, .inl rfl⟩
  | some called =>
      obtain ⟨j, call⟩ := called
      simp only [hc] at ho
      split_ifs at ho with he
      · obtain ⟨x, hx, hcall⟩ := Option.map_eq_some_iff.1 ho
        cases x with
        | schema | config | inst => cases hcall
        | owner o =>
            have hstate : (o.act call.toAct).state = o' := Object.owner.inj hcall
            obtain ⟨d, hd⟩ := Owner.act_open (hstate ▸ hopen)
            rw [hd] at hstate
            refine ⟨o, hx, ?_⟩
            cases hf : (o.declare d).fault with
            | some fault => exact .inl (hstate.symm.trans (Owner.declare_failed hf))
            | none => exact .inr ⟨d, he ▸ Op.eq_of_declares hc hd, hf, hstate⟩
      · exact ⟨o', ho, .inl rfl⟩

/-- What an operation that leaves an owner open makes of a value: it stays where the
definition stood before, and otherwise it is the default. -/
theorem Stamped.getAt_step {heap : Heap} {op : Op} (h : w.Stamped heap) (hop : op.Drawn w)
    (hk : w.held k = some (.owner o)) (hfits : o.Fitting)
    (ho : (w.step op).held k = some (.owner o')) (hopen : o'.isConfigured = false)
    (hd : o'.schema.at? path = some d) (hg : d.group = none) :
    (o.schema.at? path = some d → o'.config.getAt path = o.config.getAt path) ∧
      (o.schema.at? path ≠ some d → o'.config.getAt path = d.resolve none) := by
  obtain ⟨o₁, hk₁, hstep⟩ := open_step (Nat.ne_of_lt (h.issued.lt_clock hk)) ho hopen
  obtain rfl := held_owner_inj hk₁ hk
  rcases hstep with rfl | ⟨declaration, rfl, hf, rfl⟩
  · exact ⟨fun _ => rfl, fun hother => absurd hd hother⟩
  · have hstamped : o₁.Stamped heap k := h.objects k _ hk
    obtain ⟨heap', hgrows, hafter⟩ := h.declare hk hop
    exact hfits.getAt_declare hf (hgrows.standsIn hstamped.known) hafter.known hd hg

/-- The definition stands at the path in the schema of an owner. -/
def Declares (w : World) (k : Nat) (path : Path) (d : Definition) : Prop :=
  ∃ o, w.held k = some (.owner o) ∧ o.schema.at? path = some d

/-- The definition stands at the path in the schema of an owner before some operations and
after each of them. -/
def Keeps (w : World) (k : Nat) (path : Path) (d : Definition) : List Op → Prop
  | [] => w.Declares k path d
  | op :: rest => w.Declares k path d ∧ (w.step op).Keeps k path d rest

theorem keeps_concat {ops : List Op} {op : Op} :
    w.Keeps k path d (ops ++ [op]) ↔
      w.Keeps k path d ops ∧ ((w.after ops).step op).Declares k path d := by
  induction ops generalizing w with
  | nil => exact Iff.rfl
  | cons first rest ih => exact (and_congr_right fun _ => ih).trans and_assoc.symm

theorem Keeps.first {ops : List Op} (h : w.Keeps k path d ops) : w.Declares k path d := by
  cases ops with
  | nil => exact h
  | cons => exact h.1

theorem Keeps.last {ops : List Op} (h : w.Keeps k path d ops) :
    (w.after ops).Declares k path d := by
  induction ops generalizing w with
  | nil => exact h
  | cons op rest ih => exact ih h.2

/-- A run that leaves an owner open leaves it fitting, and stood for the definition of a value
by what it makes of it. The induction is on the run from its end, since an owner that is open
in the end was open all along. -/
theorem Stamped.getAt_after {heap : Heap} {ops : List Op} (h : w.Stamped heap)
    (hops : w.Drawn ops) (hk : w.held k = some (.owner o)) (hfits : o.Fitting)
    (ho : (w.after ops).held k = some (.owner o')) (hopen : o'.isConfigured = false) :
    o'.Fitting ∧ ∀ d, o'.schema.at? path = some d → d.group = none →
      (w.Keeps k path d ops → o'.config.getAt path = o.config.getAt path) ∧
      (¬w.Keeps k path d ops → o'.config.getAt path = d.resolve none) := by
  induction ops using List.reverseRecOn generalizing o' with
  | nil =>
      obtain rfl := held_owner_inj hk ho
      exact ⟨hfits, fun d hd _ => ⟨fun _ => rfl, fun hnot => absurd ⟨o, hk, hd⟩ hnot⟩⟩
  | append_singleton ops op ih =>
      obtain ⟨hfirst, hop, _⟩ := drawn_append.1 hops
      obtain ⟨_, hmiddle⟩ := h.after hfirst
      rw [after_append] at ho
      have hlast : ((w.after ops).step op).held k = some (.owner o') := ho
      have hne : k ≠ (w.after ops).clock := by
        have := h.issued.lt_clock hk
        rw [clock_after]
        omega
      obtain ⟨o₁, ho₁, hstep⟩ := open_step hne hlast hopen
      have hopen₁ : o₁.isConfigured = false := by
        rcases hstep with rfl | ⟨_, _, hf, _⟩
        · exact hopen
        · simp [Owner.isConfigured, (Owner.declare_done hf).1]
      obtain ⟨hfits₁, hvalue⟩ := ih hfirst ho₁ hopen₁
      refine ⟨?_, fun d hd hg => ?_⟩
      · rcases hstep with rfl | ⟨_, rfl, hf, rfl⟩
        · exact hfits₁
        · obtain ⟨_, _, hafter⟩ := hmiddle.declare ho₁ hop
          exact (hfits₁.declare hf hafter.known.proper).1
      · obtain ⟨hsame, hother⟩ := hmiddle.getAt_step hop ho₁ hfits₁ hlast hopen hd hg
        have hin : ((w.after ops).step op).Declares k path d := ⟨o', hlast, hd⟩
        rw [keeps_concat, and_iff_left hin]
        by_cases hbefore : o₁.schema.at? path = some d
        · rw [hsame hbefore]
          exact hvalue d hbefore hg
        · refine ⟨fun hkeeps => ?_, fun _ => hother hbefore⟩
          obtain ⟨o₂, ho₂, hd₂⟩ := hkeeps.last
          obtain rfl := held_owner_inj ho₁ ho₂
          exact absurd hd₂ hbefore

theorem held_derive (hk : w.held k = some (.owner o)) (name : String) :
    (w.step (.derive k name)).held w.clock = some (.owner (o.derive name w.clock)) := by
  rw [step, held_tick, if_pos rfl, derived?, hk]

/-- A derived owner that is open reads at a single setting what its parent read when it was
derived, if that definition stood there in the schema of the parent, and in its own before
and after everything that happened since. Otherwise it reads the default. What the parent had
built or inherited must have been bound to its schema. -/
theorem getAt_derived_eq_inherited_or_default {before later : List Op} {name : String}
    {parent child : Owner} (hops : empty.Drawn (before ++ .derive k name :: later))
    (hparent : (empty.after before).held k = some (.owner parent)) (hfits : parent.Fitting)
    (hchild : (empty.after (before ++ .derive k name :: later)).held before.length =
      some (.owner child))
    (hopen : child.isConfigured = false) (hd : child.schema.at? path = some d)
    (hg : d.group = none) :
    let kept := parent.schema.at? path = some d ∧
      ((empty.after before).step (.derive k name)).Keeps before.length path d later
    (kept → child.config.getAt path = parent.config.getAt path) ∧
      (¬kept → child.config.getAt path = d.resolve none) := by
  obtain ⟨hbefore, hderive, hlater⟩ := drawn_append.1 hops
  obtain ⟨_, hstamped⟩ := stamped_empty.after hbefore
  obtain ⟨_, hderived⟩ := hstamped.step hderive
  have hclock : (empty.after before).clock = before.length := by
    rw [clock_after]
    exact Nat.zero_add _
  have hborn := held_derive hparent name
  rw [hclock] at hborn
  rw [after_append] at hchild
  obtain ⟨_, hvalue⟩ := hderived.getAt_after hlater hborn (hfits.derive name _) hchild hopen
  obtain ⟨hkept, hlost⟩ := hvalue d hd hg
  have hread : (parent.derive name before.length).config.getAt path =
      parent.config.getAt path := by
    rw [hfits.config_derive, getAt_duplicate]
  refine ⟨fun h => (hkept h.2).trans hread, fun hnot => hlost fun hkeeps => hnot ⟨?_, hkeeps⟩⟩
  obtain ⟨o, ho, hd'⟩ := hkeeps.first
  obtain rfl := held_owner_inj hborn ho
  exact hd'

/-- A setting and a group with a setting. -/
def common : Schema :=
  (Schema.Making.script .empty [.setting "a" { fallback := some (.char 'c') },
    .nested "g" {} [.setting "x" {}]]).apply 0

def bequest : List Op :=
  [.schema (.script .empty [.setting "a" { fallback := some (.char 'c') },
      .nested "g" {} [.setting "x" {}]]),
    .found "base", .act 1 (.declare (.inclusion common)),
    .act 1 (.edit ⟨[], .set "a" (.bool true)⟩), .act 1 (.edit ⟨["g"], .set "x" .unit⟩)]

/-- A child gives up one of the settings and takes it back. -/
def change : List Op :=
  [.act 5 (.declare (.setting "a" {})), .act 5 (.declare (.inclusion common))]

theorem grounded_bequest_change :
    empty.Grounded (bequest ++ .derive 1 "child" :: change) := by
  have hcommon : ∀ w : World, w.held 0 = some (.schema common) → w.Shows common :=
    fun _ h => .held h
  exact ⟨⟨.empty, trivial, ⟨trivial, trivial⟩, trivial⟩, trivial, hcommon _ rfl, trivial, trivial,
    trivial, trivial, hcommon _ rfl, trivial⟩

/-- The child still reads the inherited `g.x`, but `a` reads as its default again. -/
theorem getAt_derived_taken_back :
    ∃ (parent child : Owner) (a x : Definition),
      (empty.Drawn (bequest ++ .derive 1 "child" :: change) ∧
        (empty.after bequest).held 1 = some (.owner parent) ∧ parent.Fitting ∧
        (empty.after (bequest ++ .derive 1 "child" :: change)).held 5 = some (.owner child) ∧
        child.isConfigured = false) ∧
      (child.schema.at? ⟨["g"], "x"⟩ = some x ∧ x.group = none ∧
        child.config.getAt ⟨["g"], "x"⟩ = parent.config.getAt ⟨["g"], "x"⟩ ∧
        child.config.getAt ⟨["g"], "x"⟩ = .ok .unit) ∧
      child.schema.at? ⟨[], "a"⟩ = some a ∧ parent.schema.at? ⟨[], "a"⟩ = some a ∧
        a.group = none ∧ parent.config.getAt ⟨[], "a"⟩ = .ok (.bool true) ∧
        child.config.getAt ⟨[], "a"⟩ = a.resolve none ∧
        child.config.getAt ⟨[], "a"⟩ = .ok (.char 'c') := by
  have hops := grounded_bequest_change
  have hfits : ∀ o, (empty.after bequest).held 1 = some (.owner o) → o.Fitting := fun _ hk =>
    hops.of_append.fitting hk
  refine ⟨_, _, _, _, ⟨hops.drawn, rfl, hfits _ rfl, rfl, rfl⟩, ⟨rfl, rfl, ?_, rfl⟩, rfl, rfl,
    rfl, rfl, ?_, rfl⟩
  · refine (getAt_derived_eq_inherited_or_default hops.drawn rfl (hfits _ rfl) rfl rfl rfl
      rfl).1 ?_
    exact ⟨rfl, ⟨_, rfl, rfl⟩, ⟨_, rfl, rfl⟩, _, rfl, rfl⟩
  · refine (getAt_derived_eq_inherited_or_default hops.drawn rfl (hfits _ rfl) rfl rfl rfl
      rfl).2 ?_
    rintro ⟨_, _, ⟨o, ho, hd⟩, _⟩
    cases ho
    cases hd

/-- A schema, and a configuration of it with a value. -/
def foreign : Schema :=
  (Schema.Making.script .empty [.setting "a" { fallback := some (.char '5') }]).apply 0

def intruder : Config :=
  ((Config.fresh foreign).set "a" (.char '9')).state

/-- The configuration takes the place of that of an owner with a setting of the same name. -/
def usurped : List Op :=
  [.schema (.script .empty [.setting "a" { fallback := some (.char '5') }]), .bind foreign,
    .act 1 (.edit ⟨[], .set "a" (.char '9')⟩), .found "base",
    .act 3 (.declare (.setting "a" { fallback := some (.char '1') })),
    .act 3 (.replace [] intruder)]

theorem drawn_usurped_derive : empty.Drawn (usurped ++ [.derive 3 "child"]) :=
  ⟨⟨.empty, trivial, trivial⟩, .held (k := 0) rfl, trivial, trivial, trivial,
    ⟨1, _, _, [], rfl, rfl, rfl⟩, trivial, trivial⟩

/-- Not every drawn run hands values down like this. Where the configuration of a parent was
replaced by one with another schema, a child that declares nothing does not read what its
parent reads. -/
theorem inherited_value_lost_to_another_schema :
    ¬∀ (before later : List Op) (k : Nat) (name : String) (parent child : Owner) (path : Path)
      (d : Definition), empty.Drawn (before ++ .derive k name :: later) →
      (empty.after before).held k = some (.owner parent) →
      (empty.after (before ++ .derive k name :: later)).held before.length =
        some (.owner child) →
      child.isConfigured = false → child.schema.at? path = some d → d.group = none →
      let kept := parent.schema.at? path = some d ∧
        ((empty.after before).step (.derive k name)).Keeps before.length path d later
      (kept → child.config.getAt path = parent.config.getAt path) ∧
        (¬kept → child.config.getAt path = d.resolve none) := by
  intro h
  have hsame := (h usurped [] 3 "child" _ _ ⟨[], "a"⟩ _ drawn_usurped_derive rfl rfl rfl rfl
    rfl).1 ⟨rfl, _, rfl, rfl⟩
  have hchild : (Except.ok (.char '1') : Except Fault Value) = .ok (.char '9') := hsame
  cases hchild

end World
end SettingsTree
