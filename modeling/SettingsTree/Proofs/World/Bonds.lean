import SettingsTree.Proofs.Schema.Statements
import SettingsTree.Proofs.World.Provenance
import SettingsTree.Proofs.World.Lines

/-!
# Which schema objects owners hold

The schema of an owner is an object that others may hold as well: a child holds the one of its
parent until it makes one of its own, and every configuration is bound to one. An object never
changes. Here it goes by the line at whose end it was made: a new owner makes one, and so does
every declaration that goes through. The bonds of an owner are the objects that it holds and that
its configurations are bound to.

Along every line an owner holds an open schema, shares it exactly if it still holds the object
that its parent held, and has its configuration bound to the object that it holds, unless a
configuration that is bound to another one was put in the place of its own.
-/
namespace SettingsTree

open Config

/-- The objects that an owner holds or is bound to. -/
structure Owner.Bonds where
  schema : Owner.Line
  /-- The object that the parent held when the owner was derived. -/
  ancestor : Option Owner.Line
  /-- The one that the inherited configuration is bound to. -/
  inherited : Option Owner.Line
  /-- The one that the configuration is bound to, once it is built. -/
  built : Option Owner.Line

/-- The object that the configuration is bound to after a call that is no declaration, where
`assigned` is the one of a configuration that the call puts in its place. -/
def Owner.Bonds.boundBy (b : Bonds) (assigned : Owner.Line) : Act → Owner.Line
  | .replace [] _ => assigned
  | _ => b.built.getD b.schema

theorem Owner.Bonds.boundBy_eq (b : Bonds) (assigned : Owner.Line) {a : Act}
    (h : ∀ other, a ≠ .replace [] other) : b.boundBy assigned a = b.built.getD b.schema := by
  cases a with
  | replace walk other =>
      cases walk with
      | nil => exact absurd rfl (h other)
      | cons name rest => rfl
  | declare | edit | configure | finalize | read | look => rfl

theorem Config.schema_act (c : Config) {a : Act} (h : ∀ other, a ≠ .replace [] other) :
    (c.act a).state.schema = c.schema := by
  refine act_keeps (P := fun after => after.schema = c.schema) (fun m => m.schema)
    fun walk other he => ?_
  cases walk with
  | nil => exact absurd he (h other)
  | cons name rest =>
      rw [within]
      split <;> rfl

namespace Owner
variable {o : Owner} {d : Declaration} {fault : Fault}

/-- An owner with an open schema refuses what comes after it is built, and otherwise only
statements that are wrong in themselves. -/
theorem fault_of_declare (hopen : o.schema.frozen = false)
    (hf : (o.declare d).fault = some fault) :
    o.isConfigured = true ∧ fault = .alreadyDefined d.label ∨
      o.isConfigured = false ∧ fault.Misstated := by
  rw [fault_declare, hopen] at hf
  by_cases hb : o.isConfigured = true
  · rw [if_pos hb] at hf
    exact .inl ⟨hb, (Option.some.inj hf).symm⟩
  · rw [if_neg hb, if_neg Bool.false_ne_true] at hf
    exact .inr ⟨by simpa using hb, Scope.misstated_declare d hopen hf⟩

end Owner

namespace Owner.Line
variable (assigned : Owner.Line → Owner.Line)

/-- The bonds at the end of a line. If it ends with putting a configuration in the place of the
one of the owner, then `assigned` tells to which object this one is bound. -/
def bonds : Owner.Line → Bonds
  | founded author name => ⟨founded author name, none, none, none⟩
  | derived parent _ _ =>
      let b := bonds parent
      ⟨b.schema, some b.schema, b.built.or b.inherited, none⟩
  | called before call =>
      let b := bonds before
      match call.toAct with
      | .declare d =>
          match (before.last.declare d).fault with
          | none =>
              { b with
                schema := called before call
                inherited := b.inherited.map fun _ => called before call }
          | some _ => b
      | a => { b with built := some (b.boundBy (assigned (called before call)) a) }

/-- No configuration that is bound to another object was put in the place of the owner's. -/
def Loyal : Owner.Line → Prop
  | founded _ _ => True
  | derived parent _ _ => Loyal parent
  | called before call => Loyal before ∧ ∀ other, call.toAct = .replace [] other →
      other.schema = before.last.schema ∧
        assigned (called before call) = (before.bonds assigned).schema

/-- All that a call makes of an owner and of its bonds. -/
inductive Turn (before : Owner.Line) (call : Call) : Owner → Bonds → Prop where
  | refused (d : Declaration) (fault : Fault) (asked : call.toAct = .declare d)
      (refused : (before.last.declare d).fault = some fault) :
      Turn before call before.last (before.bonds assigned)
  | declared (d : Declaration) (scope : Scope) (asked : call.toAct = .declare d)
      (done : (before.last.declare d).fault = none) (unbuilt : before.last.built = none)
      (ran : Scope.declare ⟨before.last.schema, before.last.supply⟩ d = .done scope) :
      Turn before call
        { before.last with
          schema := scope.schema
          supply := scope.supply
          origin := if before.last.origin = .own then .own else .forked
          inherited := before.last.inherited.map (Config.rebind · scope.schema)
          readers := collectReaders before.last.readers scope.schema }
        { before.bonds assigned with
          schema := called before call
          inherited := (before.bonds assigned).inherited.map fun _ => called before call }
  | used (asked : ∀ d, call.toAct ≠ .declare d) :
      Turn before call
        { before.last with built := some (before.last.config.act call.toAct).state }
        { before.bonds assigned with
          built := some ((before.bonds assigned).boundBy (assigned (called before call))
            call.toAct) }

theorem turn (before : Owner.Line) (call : Call) :
    Turn assigned before call (called before call).last ((called before call).bonds assigned) := by
  rw [last, bonds]
  cases ha : call.toAct with
  | declare d =>
      simp only
      cases hf : (before.last.declare d).fault with
      | none =>
          obtain ⟨hunbuilt, scope, hran, hstate⟩ := declare_done hf
          show Turn assigned before call (before.last.declare d).state _
          rw [hstate]
          exact .declared d scope ha hf hunbuilt hran
      | some fault =>
          show Turn assigned before call (before.last.declare d).state _
          rw [declare_failed hf]
          exact .refused d fault ha hf
  | edit | replace | configure | finalize | read | look =>
      have hasked : ∀ d, call.toAct ≠ .declare d := by simp [ha]
      have hused : Turn assigned before call _ _ := .used hasked
      rw [ha] at hused
      exact hused

variable {assigned} {before parent : Owner.Line} {call : Call} {o : Owner} {b : Bonds}

/-- What holds of an owner at the end of a line, whatever was done to it. -/
structure Held (l : Owner.Line) (o : Owner) (b : Bonds) : Prop where
  unfrozen : o.schema.frozen = false
  built : b.built.isSome = o.isConfigured
  inherited : b.inherited.isSome = o.inherited.isSome
  /-- The object that is held is still what it was when it was made. -/
  schema : b.schema.last.schema = o.schema
  shares : o.sharesParentSchema = true ↔ b.ancestor = some b.schema
  schema_le : sizeOf b.schema ≤ sizeOf l
  ancestor_le : ∀ m, b.ancestor = some m → sizeOf m ≤ sizeOf l

/-- What the owner has built or inherited is bound to the schema, and the object, that it holds. -/
structure Bound (o : Owner) (b : Bonds) : Prop where
  schema : ∀ c, o.current? = some c → c.schema = o.schema
  object : ∀ m, b.built.or b.inherited = some m → m = b.schema

theorem Turn.held (h : Turn assigned before call o b) (hlast : (called before call).last = o)
    (hbefore : Held before before.last (before.bonds assigned)) :
    Held (called before call) o b := by
  have hlt : sizeOf before < sizeOf (called before call) := by simp; omega
  have hancestor : ∀ m, (before.bonds assigned).ancestor = some m →
      sizeOf m < sizeOf (called before call) := fun m hm =>
    Nat.lt_of_le_of_lt (hbefore.ancestor_le m hm) hlt
  have hschema := Nat.le_trans hbefore.schema_le (Nat.le_of_lt hlt)
  have hold : ∀ m, (before.bonds assigned).ancestor = some m →
      sizeOf m ≤ sizeOf (called before call) := fun m hm => Nat.le_of_lt (hancestor m hm)
  cases h with
  | refused d fault asked refused =>
      exact ⟨hbefore.unfrozen, hbefore.built, hbefore.inherited, hbefore.schema, hbefore.shares,
        hschema, hold⟩
  | declared d scope asked done unbuilt ran =>
      have hfrozen := (Scope.ends_declare ⟨before.last.schema, before.last.supply⟩ d).frozen_eq
      rw [ran] at hfrozen
      refine ⟨hfrozen.trans hbefore.unfrozen, hbefore.built, ?_, ?_, ?_, Nat.le_refl _, hold⟩
      · simp [hbefore.inherited]
      · rw [hlast]
      · -- The new object is none of those that were there before.
        have hnew : (before.bonds assigned).ancestor ≠ some (called before call) := fun hm =>
          Nat.lt_irrefl _ (hancestor _ hm)
        simp only [hnew, iff_false, sharesParentSchema]
        split_ifs <;> simp
  | used asked =>
      exact ⟨hbefore.unfrozen, rfl, hbefore.inherited, hbefore.schema, hbefore.shares,
        hschema, hold⟩

theorem held_last (assigned : Owner.Line → Owner.Line) (l : Owner.Line) :
    Held l l.last (l.bonds assigned) := by
  induction l with
  | founded author name =>
      exact ⟨rfl, rfl, rfl, rfl, by simp [last, bonds, sharesParentSchema, Owner.new],
        Nat.le_refl _, fun _ hm => nomatch hm⟩
  | derived parent author name ih =>
      have hlt : sizeOf parent < sizeOf (derived parent author name) := by simp; omega
      have hschema := Nat.le_trans ih.schema_le (Nat.le_of_lt hlt)
      refine ⟨ih.unfrozen, rfl, ?_, ih.schema, ?_, hschema, fun m hm => ?_⟩
      · have hinherited : (derived parent author name).last.inherited =
            (parent.last.built.or parent.last.inherited).map duplicate := rfl
        have hbuilt := ih.built
        rw [isConfigured] at hbuilt
        simp [hinherited, bonds, Option.isSome_or, hbuilt, ih.inherited]
      · simp [last, bonds, sharesParentSchema, Owner.derive]
      · exact Option.some.inj hm ▸ hschema
  | called before call ih => exact (turn assigned before call).held rfl ih

theorem Turn.bound (h : Turn assigned before call o b) (hl : (called before call).Loyal assigned)
    (hbefore : Bound before.last (before.bonds assigned)) : Bound o b := by
  cases h with
  | refused d fault asked refused => exact hbefore
  | declared d scope asked done unbuilt ran =>
      have hbuilt : (before.bonds assigned).built = none := by
        have hsome := (held_last assigned before).built
        rw [isConfigured, unbuilt] at hsome
        simpa using hsome
      refine ⟨fun c hc => ?_, fun m hm => ?_⟩
      · simp only [current?, unbuilt, Option.none_or] at hc
        obtain ⟨old, _, rfl⟩ := Option.map_eq_some_iff.1 hc
        exact schema_rebind old _
      · simp only [hbuilt, Option.none_or] at hm
        obtain ⟨_, _, rfl⟩ := Option.map_eq_some_iff.1 hm
        rfl
  | used asked =>
      refine ⟨fun c hc => ?_, fun m hm => ?_⟩
      · obtain rfl := Option.some.inj hc
        by_cases hr : ∃ other, call.toAct = .replace [] other
        · obtain ⟨other, hr⟩ := hr
          rw [hr]
          exact (hl.2 other hr).1
        · rw [schema_act _ fun other he => hr ⟨other, he⟩]
          exact schema_config fun c hc => hbefore.schema c (by simp [current?, hc])
      · obtain rfl := Option.some.inj hm
        by_cases hr : ∃ other, call.toAct = .replace [] other
        · obtain ⟨other, hr⟩ := hr
          rw [hr]
          exact (hl.2 other hr).2
        · rw [Bonds.boundBy_eq _ _ fun other he => hr ⟨other, he⟩]
          cases hb : (before.bonds assigned).built with
          | none => rfl
          | some m => exact hbefore.object m (by rw [hb]; rfl)

theorem bound_last {l : Owner.Line} (hl : l.Loyal assigned) : Bound l.last (l.bonds assigned) := by
  induction l with
  | founded author name => exact ⟨fun _ hc => (nomatch hc), fun _ hm => nomatch hm⟩
  | derived parent author name ih =>
      have hparent := ih hl
      refine ⟨fun c hc => ?_, fun m hm => hparent.object m hm⟩
      have hcurrent : (derived parent author name).last.current? =
          parent.last.current?.map duplicate := rfl
      rw [hcurrent] at hc
      obtain ⟨old, hold, rfl⟩ := Option.map_eq_some_iff.1 hc
      exact (schema_duplicate old).trans (hparent.schema old hold)
  | called before call ih => exact (turn assigned before call).bound hl (ih hl.1)

theorem Turn.configured (h : Turn assigned before call o b)
    (hbefore : before.last.isConfigured = true) :
    o.isConfigured = true ∧ o.schema = before.last.schema ∧
      b.schema = (before.bonds assigned).schema := by
  cases h with
  | refused d fault asked refused => exact ⟨hbefore, rfl, rfl⟩
  | declared d scope asked done unbuilt ran =>
      rw [isConfigured, unbuilt] at hbefore
      cases hbefore
  | used asked => exact ⟨rfl, rfl, rfl⟩

theorem configured_extend (assigned : Owner.Line → Owner.Line) {l : Owner.Line}
    (h : l.last.isConfigured = true) (calls : List Call) :
    (l.extend calls).last.isConfigured = true ∧ (l.extend calls).last.schema = l.last.schema ∧
      ((l.extend calls).bonds assigned).schema = (l.bonds assigned).schema := by
  induction calls generalizing l with
  | nil => exact ⟨h, rfl, rfl⟩
  | cons call rest ih =>
      obtain ⟨hconfigured, hschema, hobject⟩ := (turn assigned l call).configured h
      obtain ⟨hlast, hschema', hobject'⟩ := ih hconfigured
      exact ⟨hlast, hschema'.trans hschema, hobject'.trans hobject⟩

end Owner.Line

namespace World
variable {ops : List Op} {k : Nat} {o : Owner}

/-- Along every run an owner holds an open schema, and says that it shares it as long as that is
the object its parent held. What it has built, or inherited as long as it
has built nothing, is bound to the very object that it holds, unless a configuration bound to
another one was put in its place. Once it is configured it stays so and holds that object for
good. So declarations are refused for the frozen schema never, and for the configuration exactly
if there is one. -/
theorem owner_stays_bound (assigned : Owner.Line → Owner.Line)
    (hk : (empty.after ops).held k = some (.owner o)) :
    ∃ l, line? ops k = some (.owner l) ∧ l.last = o ∧
      let b := l.bonds assigned
      (o.schema.frozen = false ∧ b.schema.last.schema = o.schema ∧
        (o.sharesParentSchema = true ↔ b.ancestor = some b.schema)) ∧
      (l.Loyal assigned → (∀ c, o.current? = some c → c.schema = o.schema) ∧
        (b.built.or b.inherited).isSome = o.current?.isSome ∧
        ∀ m, b.built.or b.inherited = some m → m = b.schema) ∧
      (o.isConfigured = true → ∀ later, ∃ o' l',
        (empty.after (ops ++ later)).held k = some (.owner o') ∧
        line? (ops ++ later) k = some (.owner l') ∧ l'.last = o' ∧
        o'.isConfigured = true ∧ o'.schema = o.schema ∧ (l'.bonds assigned).schema = b.schema) ∧
      ∀ d name, (o.declare d).fault ≠ some (.frozenSchema name) ∧
        ((o.declare d).fault = some (.alreadyDefined name) ↔
          o.isConfigured = true ∧ name = d.label) := by
  obtain ⟨l, hl, rfl⟩ := exists_line hk
  have hheld := Owner.Line.held_last assigned l
  refine ⟨l, hl, rfl, ⟨hheld.unfrozen, hheld.schema, hheld.shares⟩, fun hloyal => ?_,
    fun hb later => ?_, fun d name => ⟨fun hf => ?_, fun hf => ?_, ?_⟩⟩
  · have hbound := Owner.Line.bound_last hloyal
    refine ⟨hbound.schema, ?_, hbound.object⟩
    rw [Option.isSome_or, hheld.built, hheld.inherited, Owner.current?, Option.isSome_or]
    rfl
  · have hlater := line?_append hl later
    obtain ⟨hconfigured, hschema, hobject⟩ :=
      Owner.Line.configured_extend assigned hb (Chronicle.callsOn k later)
    exact ⟨_, _, held_of_line? hlater, hlater, rfl, hconfigured, hschema, hobject⟩
  · rcases Owner.fault_of_declare hheld.unfrozen hf with ⟨_, hdefined⟩ | ⟨_, hmisstated⟩
    · cases hdefined
    · cases hmisstated
  · rcases Owner.fault_of_declare hheld.unfrozen hf with ⟨hb, hdefined⟩ | ⟨_, hmisstated⟩
    · exact ⟨hb, Fault.alreadyDefined.inj hdefined⟩
    · cases hmisstated
  · rintro ⟨hb, rfl⟩
    rw [Owner.fault_declare, if_pos hb]

/-- An owner that declared a setting. -/
def grantor : Owner.Line :=
  .called (.founded 0 "base") (.act (.declare (.setting "a" {})))

/-- Its configuration is built, and then replaced by a new one of the same schema. -/
def granting : Owner.Line :=
  .called (.called grantor (.act (.edit ⟨[], .set "a" .unit⟩)))
    (.act (.replace [] grantor.last.config))

/-- A declaration of a child is refused, and then one goes through. -/
def grantee : Owner.Line :=
  .called (.called (.derived granting 4 "child") (.act (.declare (.setting "9" {}))))
    (.act (.declare (.nested "g" {} [.setting "x" {}])))

def granted : List Op :=
  [.found "base", .act 0 (.declare (.setting "a" {})), .act 0 (.edit ⟨[], .set "a" .unit⟩),
    .act 0 (.replace [] grantor.last.config), .derive 0 "child",
    .act 4 (.declare (.setting "9" {})), .act 4 (.declare (.nested "g" {} [.setting "x" {}]))]

theorem loyal_grantee : grantee.Loyal fun _ => grantor := by
  have hreplaced : granting.Loyal fun _ => grantor := by
    refine ⟨⟨⟨trivial, fun _ he => nomatch he⟩, fun _ he => nomatch he⟩, fun other he => ?_⟩
    obtain rfl : grantor.last.config = other := (Act.replace.inj he).2
    exact ⟨rfl, rfl⟩
  exact ⟨⟨hreplaced, fun _ he => nomatch he⟩, fun _ he => nomatch he⟩

/-- The child, which is not built, has inherited a configuration that is bound to the object it
has made. Its parent is configured and keeps its object through one more declaration. -/
theorem owner_stays_bound_granted :
    ∃ child parent : Owner, ∃ c,
      ((empty.after granted).held 4 = some (.owner child) ∧ child.isConfigured = false ∧
        grantee.Loyal fun _ => grantor) ∧
      (child.current? = some c ∧ c.schema = child.schema ∧ child.schema.names = ["a", "g"]) ∧
      ((empty.after granted).held 0 = some (.owner parent) ∧ parent.isConfigured = true) ∧
      (parent.declare (.setting "b" {})).fault = some (.alreadyDefined "b") ∧
      ∃ o', (empty.after (granted ++ [.act 0 (.declare (.setting "b" {}))])).held 0 =
        some (.owner o') ∧ o'.schema = parent.schema ∧ o'.schema.names = ["a"] := by
  have hchild : (empty.after granted).held 4 = some (.owner grantee.last) := rfl
  have hparent : (empty.after granted).held 0 = some (.owner granting.last) := rfl
  obtain ⟨l, hl, _, _, hbound, _⟩ := owner_stays_bound (fun _ => grantor) hchild
  obtain ⟨l₀, _, _, _, _, hlater, hdeclare⟩ := owner_stays_bound (fun _ => grantor) hparent
  obtain rfl : grantee = l := Line.owner.inj (Option.some.inj hl)
  obtain ⟨o', _, ho', _, _, _, hschema, _⟩ := hlater rfl [.act 0 (.declare (.setting "b" {}))]
  refine ⟨_, _, _, ⟨hchild, rfl, loyal_grantee⟩, ⟨rfl, (hbound loyal_grantee).1 _ rfl, rfl⟩,
    ⟨hparent, rfl⟩, (hdeclare (.setting "b" {}) "b").2.2 ⟨rfl, rfl⟩, o', ho', hschema, ?_⟩
  rw [hschema]
  rfl

end World
end SettingsTree
