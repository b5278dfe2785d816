import SettingsTree.Proofs.Schema.Growth
import SettingsTree.Proofs.World.Bonds
import SettingsTree.Proofs.World.Readers

/-!
# Readers lead to settings

The readers of an owner are carried along beside its schema: from parent to child, through
declarations, and to instances. A schema of an owner never loses a name, whatever the definition
under it is replaced by. So each reader is a declared name all along the line of an owner, and
reading by name alone reaches a setting of the configuration as long as that is bound to the schema
of its owner. It is, unless a configuration that is bound to another schema is assigned to it.
-/
namespace SettingsTree

theorem Definition.mem_names_insertAll {name : String} (ds : List Definition)
    {ours : List Definition} (h : name ∈ ours.map Definition.name) :
    name ∈ (insertAll ds ours).map Definition.name := by
  induction ds generalizing ours with
  | nil => exact h
  | cons d rest ih =>
      refine ih ?_
      rw [names_insert]
      split_ifs
      · exact h
      · exact List.mem_append_left _ h

theorem Scope.mem_names_declare {scope after : Scope} {d : Declaration} {name : String}
    (h : scope.declare d = .done after) (hm : name ∈ scope.schema.names) :
    name ∈ after.schema.names := by
  rw [schema_of_declare h]
  exact Definition.mem_names_insertAll _ hm

/-- The readers are declared names, and the names that are marked as readers are among them. -/
structure Schema.Serves (s : Schema) (readers : List String) : Prop where
  declared : ∀ name ∈ readers, name ∈ s.names
  marked : ∀ name, s.Marks name → name ∈ readers

/-- The readers fit the schema of the configuration, and reading by the name of one of them is
refused neither as undeclared nor as undefined. -/
structure Config.Offers (c : Config) (readers : List String)
    (read : String → Except Fault Value) : Prop where
  serves : c.schema.Serves readers
  reaches : ∀ name ∈ readers, ∀ other, read name ≠ .error (.unknownSetting other) ∧
    read name ≠ .error (.undefinedReader other)

section readers
variable {c : Config} {readers : List String} {name : String}

theorem readThrough_of_mem (h : name ∈ readers) : readThrough readers c name = c.value name :=
  if_pos h

theorem Config.value_ne_of_declared (h : name ∈ c.schema.names) (other : String) :
    c.value name ≠ .error (.unknownSetting other) ∧
      c.value name ≠ .error (.undefinedReader other) := by
  obtain ⟨d, hl⟩ := Schema.exists_lookup_iff.2 h
  have hrejected : ∀ fault, c.value name = .error fault →
      ∃ setting reason, fault = .rejected setting reason := fun fault hf => by
    rw [Config.value_of_lookup hl] at hf
    exact Config.fault_of_valueOf (fun _ _ => Config.fault_of_toValue) hf
  constructor
  all_goals
    intro hf
    obtain ⟨_, _, he⟩ := hrejected _ hf
    cases he

theorem Schema.Serves.offers (h : c.schema.Serves readers) :
    c.Offers readers (readThrough readers c) where
  serves := h
  reaches name hm other := by
    rw [readThrough_of_mem hm]
    exact c.value_ne_of_declared (h.declared name hm) other

end readers

theorem Owner.fst_read (o : Owner) (name : String) :
    (o.read name).1 = readThrough o.readers o.config name := by
  rw [Owner.read, Owner.config_build]

namespace Owner.Line

theorem mem_names_called {before : Owner.Line} {name : String}
    (h : name ∈ before.last.schema.names) (call : Call) :
    name ∈ (before.called call).last.schema.names := by
  rcases before.last.act_keeps_or_declares call.toAct with ⟨hschema, _⟩ |
    ⟨d, scope, hscope, hschema, _⟩
  · have hsame : (before.called call).last.schema = before.last.schema := hschema
    rwa [hsame]
  · have hnew : (before.called call).last.schema = scope.schema := hschema
    rw [hnew]
    exact Scope.mem_names_declare hscope h

theorem Marked.declared {l : Owner.Line} {name : String} (h : l.Marked name) :
    name ∈ l.last.schema.names := by
  induction l with
  | founded author name => exact h.elim
  | derived parent author name ih => exact ih h
  | called before call ih =>
      rcases h with hbefore | ⟨d, hl, _⟩
      · exact mem_names_called (ih hbefore) call
      · exact Schema.exists_lookup_iff.1 ⟨d, hl⟩

theorem serves (l : Owner.Line) : l.last.schema.Serves l.last.readers where
  declared name hm := ((l.tabled.listed name).1 hm).declared
  marked name hm := (l.tabled.listed name).2 (l.tabled.current name hm)

theorem readers_called {before : Owner.Line} {name : String} (h : name ∈ before.last.readers)
    (call : Call) : name ∈ (before.called call).last.readers :=
  ((before.called call).tabled.listed name).2 (.inl ((before.tabled.listed name).1 h))

theorem readers_extend {l : Owner.Line} {name : String} (h : name ∈ l.last.readers)
    (calls : List Call) : name ∈ (l.extend calls).last.readers := by
  induction calls generalizing l with
  | nil => exact h
  | cons call rest ih => exact ih (readers_called h call)

/-- Whatever was assigned to the configuration as a whole, here or to an ancestor before the
derivation, was bound to the schema of the owner. -/
def KeepsSchema : Owner.Line → Prop
  | founded _ _ => True
  | derived parent _ _ => parent.KeepsSchema
  | called before call => before.KeepsSchema ∧
      ∀ other, call.toAct = .replace [] other → other.schema = before.last.schema

/-- The object that an owner holds does not depend on what was assigned. -/
theorem schema_bonds (assigned other : Owner.Line → Owner.Line) (l : Owner.Line) :
    (l.bonds assigned).schema = (l.bonds other).schema := by
  induction l with
  | founded author name => rfl
  | derived parent author name ih => exact ih
  | called before call ih =>
      rw [bonds, bonds]
      cases call.toAct with
      | declare d =>
          simp only
          cases (before.last.declare d).fault with
          | none => rfl
          | some fault => exact ih
      | edit | replace | configure | finalize | read | look => exact ih

/-- The object that the owner held before the last call. -/
def heldBefore : Owner.Line → Owner.Line
  | called before _ => (before.bonds id).schema
  | l => l

theorem KeepsSchema.loyal {l : Owner.Line} (h : l.KeepsSchema) : l.Loyal heldBefore := by
  induction l with
  | founded author name => exact h
  | derived parent author name ih => exact ih h
  | called before call ih =>
      exact ⟨ih h.1, fun other he => ⟨h.2 other he, schema_bonds id heldBefore before⟩⟩

theorem KeepsSchema.config {l : Owner.Line} (h : l.KeepsSchema) :
    l.last.config.schema = l.last.schema :=
  schema_config fun c hc => (bound_last h.loyal).schema c (by rw [current?, hc]; rfl)

theorem KeepsSchema.offers {l : Owner.Line} (h : l.KeepsSchema) :
    l.last.config.Offers l.last.readers fun name => (l.last.read name).1 := by
  have hserves : l.last.config.schema.Serves l.last.readers := h.config ▸ l.serves
  have hread : (fun name => (l.last.read name).1) = readThrough l.last.readers l.last.config :=
    funext fun name => l.last.fst_read name
  rw [hread]
  exact hserves.offers

end Owner.Line

namespace Instance.Line

/-- Whatever was assigned to the configuration as a whole, here or to the owner before, was bound
to the same schema. -/
def KeepsSchema : Instance.Line → Prop
  | spawned owner => owner.KeepsSchema
  | called before call => before.KeepsSchema ∧
      ∀ other, call.toAct = .replace [] other → other.schema = before.last.config.schema

theorem readers_called (before : Instance.Line) (call : Call) :
    (before.called call).last.readers = before.last.readers := by
  rw [last, Instance.state_act]

theorem KeepsSchema.serves {l : Instance.Line} (h : l.KeepsSchema) :
    l.last.config.schema.Serves l.last.readers := by
  induction l with
  | spawned owner =>
      have hschema : (last (.spawned owner)).config.schema = owner.last.config.schema := by
        rw [last, Owner.spawn, Owner.config_build]
        exact Config.schema_duplicate _
      rw [hschema, Owner.Line.KeepsSchema.config h]
      exact owner.serves
  | called before call ih =>
      have hschema : (before.called call).last.config.schema = before.last.config.schema := by
        rw [last, Instance.state_act]
        by_cases hr : ∃ other, call.toAct = .replace [] other
        · obtain ⟨other, hr⟩ := hr
          rw [hr]
          exact h.2 other hr
        · exact Config.schema_act _ fun other he => hr ⟨other, he⟩
      rw [hschema, readers_called]
      exact ih h.1

theorem foldl_call_spawned (owner : Owner.Line) (calls : List Call) :
    ∃ l, calls.foldl Line.call (.inst (.spawned owner)) = .inst l ∧
      l.last.readers = owner.last.readers := by
  have hfold : ∀ l : Instance.Line, ∃ l', calls.foldl Line.call (.inst l) = .inst l' ∧
      l'.last.readers = l.last.readers := by
    induction calls with
    | nil => exact fun l => ⟨l, rfl, rfl⟩
    | cons call rest ih =>
        intro l
        obtain ⟨l', hl', hreaders⟩ := ih (l.called call)
        exact ⟨l', hl', hreaders.trans (readers_called l call)⟩
  exact hfold (.spawned owner)

end Instance.Line

/-- Assigns a configuration to another one as a whole. -/
def Op.Assigns : Op → Prop
  | .act _ (.replace [] _) => True
  | _ => False

theorem Op.toAct_of_call? {op : Op} {k : Nat} {call : Call} (h : op.call? = some (k, call))
    (hop : ¬op.Assigns) (other : Config) : call.toAct ≠ .replace [] other := by
  cases op with
  | schema | bind | found | derive => cases h
  | spawn j | copy j making =>
      cases h
      exact fun he => nomatch he
  | act j a =>
      cases h
      rintro rfl
      exact hop trivial

namespace Line

def KeepsSchema : Line → Prop
  | owner l => l.KeepsSchema
  | inst l => l.KeepsSchema

theorem KeepsSchema.call {l : Line} (h : l.KeepsSchema) {call : Call}
    (hcall : ∀ other, call.toAct ≠ .replace [] other) : (l.call call).KeepsSchema := by
  cases l with
  | owner l | inst l => exact ⟨h, fun other he => absurd he (hcall other)⟩

end Line

namespace Chronicle

/-- Every line kept the schema. -/
def KeepsSchemas (h : Chronicle) : Prop :=
  ∀ k l, h.lines k = some l → l.KeepsSchema

theorem KeepsSchemas.begun {h : Chronicle} (hkeeps : h.KeepsSchemas) {op : Op} {l : Line}
    (hl : h.begun? op = some l) : l.KeepsSchema := by
  cases op with
  | schema | bind | copy | act => cases hl
  | found name =>
      obtain rfl := Option.some.inj hl
      exact trivial
  | derive k | spawn k =>
      simp only [begun?] at hl
      split at hl
      · next owner howner =>
          obtain rfl := Option.some.inj hl
          exact hkeeps k (.owner owner) howner
      · cases hl

theorem KeepsSchemas.step {h : Chronicle} (hkeeps : h.KeepsSchemas) {op : Op}
    (hop : ¬op.Assigns) : (h.step op).KeepsSchemas := by
  intro k l hl
  by_cases hk : k = h.clock
  · rw [hk, lines_step_self] at hl
    exact hkeeps.begun hl
  · rw [lines_step_of_ne hk, continued?] at hl
    split at hl
    · next j call hcall =>
        split_ifs at hl
        · obtain ⟨before, hbefore, rfl⟩ := Option.map_eq_some_iff.1 hl
          exact (hkeeps k before hbefore).call fun other => Op.toAct_of_call? hcall hop other
        · exact hkeeps k l hl
    · exact hkeeps k l hl

theorem KeepsSchemas.after {h : Chronicle} (hkeeps : h.KeepsSchemas) {ops : List Op}
    (hops : ∀ op ∈ ops, ¬op.Assigns) : (h.after ops).KeepsSchemas := by
  induction ops generalizing h with
  | nil => exact hkeeps
  | cons op rest ih =>
      obtain ⟨hop, hrest⟩ := List.forall_mem_cons.1 hops
      exact ih (hkeeps.step hop) hrest

end Chronicle

namespace World
variable {ops before later : List Op} {k : Nat} {p : Owner}

/-- A child goes on to have the readers that its parent had when it was derived. -/
theorem exists_derived (hp : (empty.after before).held k = some (.owner p)) (name : String)
    (hops : ops = before ++ .derive k name :: later) :
    ∃ child, (empty.after ops).held before.length = some (.owner child) ∧
      p.readers ⊆ child.readers := by
  obtain ⟨parent, hparent, rfl⟩ := exists_line hp
  have hchild := line?_append (line?_derive hparent name) later
  rw [List.append_cons before] at hops
  rw [← hops] at hchild
  refine ⟨_, held_of_line? hchild, fun reader hreader => ?_⟩
  exact Owner.Line.readers_extend (l := .derived parent before.length name) hreader _

/-- An instance goes on to have the readers that its owner had when it was made. -/
theorem exists_spawned (hp : (empty.after before).held k = some (.owner p))
    (hops : ops = before ++ .spawn k :: later) :
    ∃ i, (empty.after ops).held before.length = some (.inst i) ∧ i.readers = p.readers := by
  obtain ⟨owner, howner, rfl⟩ := exists_line hp
  have hline := line?_foldl_call (line?_spawn howner) later
  rw [List.append_cons before] at hops
  rw [← hops] at hline
  obtain ⟨l, hl, hreaders⟩ :=
    Instance.Line.foldl_call_spawned owner (Chronicle.callsOn before.length later)
  rw [hl] at hline
  exact ⟨l.last, held_of_line? hline, hreaders⟩

/-- In every run, and wherever no configuration that is bound to another schema was assigned to
the one that is read, each reader of an owner or an instance is declared in the schema of its
configuration, and each setting that this schema marks as a reader is one. Reading by the name of
a reader answers what the configuration does, and is refused neither as undeclared nor as
undefined. Readers are handed on to children and instances. -/
theorem readers_reach_settings (ops : List Op) :
    ((∀ op ∈ ops, ¬op.Assigns) → ∀ k l, line? ops k = some l → l.KeepsSchema) ∧
    (∀ k o, (empty.after ops).held k = some (.owner o) →
      ∃ l, line? ops k = some (.owner l) ∧ l.last = o ∧ o.schema.Serves o.readers ∧
        (∀ name ∈ o.readers, (o.read name).1 = o.config.value name) ∧
        (l.KeepsSchema → o.config.schema = o.schema ∧
          o.config.Offers o.readers fun name => (o.read name).1)) ∧
    (∀ k i, (empty.after ops).held k = some (.inst i) →
      ∃ l, line? ops k = some (.inst l) ∧ l.last = i ∧
        (∀ name ∈ i.readers, i.read name = i.config.value name) ∧
        (l.KeepsSchema → i.config.Offers i.readers i.read)) ∧
    ∀ before later k p, (empty.after before).held k = some (.owner p) →
      (∀ name, ops = before ++ .derive k name :: later →
        ∃ child, (empty.after ops).held before.length = some (.owner child) ∧
          p.readers ⊆ child.readers) ∧
      (ops = before ++ .spawn k :: later →
        ∃ i, (empty.after ops).held before.length = some (.inst i) ∧
          i.readers = p.readers) := by
  refine ⟨fun hops => ?_, fun k o ho => ?_, fun k i hi => ?_, fun before later k p hp => ?_⟩
  · have hempty : Chronicle.empty.KeepsSchemas := fun _ _ hl => nomatch hl
    exact hempty.after hops
  · obtain ⟨l, hl, rfl⟩ := exists_line ho
    refine ⟨l, hl, rfl, l.serves, fun name hm => ?_, fun hkeeps => ⟨hkeeps.config, hkeeps.offers⟩⟩
    rw [Owner.fst_read, readThrough_of_mem hm]
  · obtain ⟨l, hl, rfl⟩ := exists_instance_line hi
    exact ⟨l, hl, rfl, fun name hm => readThrough_of_mem hm, fun hkeeps => hkeeps.serves.offers⟩
  · exact ⟨fun name hops => exists_derived hp name hops, fun hops => exists_spawned hp hops⟩

/-- A child declares a reader of its parent again, as a group that is none, and makes an instance,
which is assigned a value in this group. -/
def regrouped : List Op :=
  [.found "base", .act 0 (.declare (.setting "a" { fallback := some (.char '1'), reader := true })),
    .derive 0 "child", .act 2 (.declare (.nested "a" {} [.setting "x" {}])), .spawn 2,
    .act 4 (.edit ⟨["a"], .set "x" (.bool true)⟩)]

/-- The instance still reads `a` by its name alone, and gets the whole group. -/
theorem readers_reach_settings_regrouped :
    ∃ child : Owner, ∃ i : Instance,
      ((empty.after regrouped).held 2 = some (.owner child) ∧ "a" ∈ child.readers ∧
        ¬child.schema.Marks "a" ∧ "a" ∈ child.config.schema.names) ∧
      ((empty.after regrouped).held 4 = some (.inst i) ∧ "a" ∈ i.readers ∧
        "a" ∈ i.config.schema.names) ∧
      (child.read "a").1 = child.config.value "a" ∧ i.read "a" = i.config.value "a" ∧
      i.read "a" = .ok (.map [(.str "x", .bool true)]) := by
  obtain ⟨hassigned, howners, hinstances, hhanded⟩ := readers_reach_settings regrouped
  have hkeeps := hassigned (by simp [regrouped, Op.Assigns])
  obtain ⟨child, hchild, hinherited⟩ :=
    (hhanded (regrouped.take 2) (regrouped.drop 3) 0 _ rfl).1 "child" rfl
  obtain ⟨i, hi, hreaders⟩ := (hhanded (regrouped.take 4) (regrouped.drop 5) 2 _ rfl).2 rfl
  have ha : "a" ∈ child.readers := hinherited (by decide)
  have ha' : "a" ∈ i.readers := hreaders ▸ by decide
  have hmarks : ¬child.schema.Marks "a" := by
    obtain rfl := Object.owner.inj (Option.some.inj hchild)
    rintro ⟨d, hd, hreader⟩
    obtain rfl := Option.some.inj hd
    cases hreader
  have hgroup : i.config.value "a" = .ok (.map [(.str "x", .bool true)]) := by
    obtain rfl := Object.inst.inj (Option.some.inj hi)
    rfl
  obtain ⟨l, hl, _, _, hread, hoffers⟩ := howners 2 child hchild
  obtain ⟨m, hm, _, hget, hserves⟩ := hinstances 4 i hi
  have hdeclared := (hoffers (hkeeps 2 _ hl)).2.serves.declared "a" ha
  have hdeclared' := (hserves (hkeeps 4 _ hm)).serves.declared "a" ha'
  exact ⟨child, i, ⟨hchild, ha, hmarks, hdeclared⟩, ⟨hi, ha', hdeclared'⟩, hread "a" ha,
    hget "a" ha', (hget "a" ha').trans hgroup⟩

end World
end SettingsTree
