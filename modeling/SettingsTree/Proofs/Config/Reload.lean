import SettingsTree.Proofs.Config.Batches
import SettingsTree.Proofs.Config.Emission
import SettingsTree.Proofs.Config.Genuine
import SettingsTree.Proofs.Config.Kinds

/-!
# Written out and read back

A configuration that resolves is written out and applied as one batch to a fresh configuration
of the same schema. If the constructors keep what they have returned, the batch goes through.
The null values are not in it, so they read as their defaults afterwards. The two
configurations are equal exactly if this makes no difference.
-/
namespace SettingsTree

/-- Given a value that it has returned, the constructor returns it again. -/
def Definition.Idempotent (d : Definition) : Prop :=
  ∀ given v, d.resolve given = .ok v → d.resolve (some v) = .ok v

namespace Schema
variable {s t : Schema} {name : String} {d : Definition}

/-- All single settings have idempotent constructors, at every depth. -/
def Idempotent (s : Schema) : Prop :=
  ∀ path d, s.at? path = some d → d.group = none → d.Idempotent

theorem Idempotent.single (h : s.Idempotent) (hl : s.lookup name = some d) (hg : d.group = none) :
    d.Idempotent :=
  h ⟨[], name⟩ d hl hg

theorem Idempotent.group (h : s.Idempotent) (hl : s.lookup name = some d)
    (hg : d.group = some t) : t.Idempotent := fun path e he =>
  h ⟨name :: path.parents, path.leaf⟩ e ((at?_of_group hl hg).trans he)

end Schema

namespace Config
variable {heap : Heap} {c inner : Config} {s t : Schema} {name : String} {d : Definition}
  {v : Value} {batch : Table Value}

/-- Every single setting that reads as null, at whatever depth, has that null for its default. -/
def NullsByDefault (c : Config) : Prop :=
  ∀ path d v, c.schema.at? path = some d → d.group = none → c.getAt path = .ok v →
    v.isNull = true → d.resolve none = .ok v

theorem nullsByDefault_iff (h : c.Shaped) :
    c.NullsByDefault ↔
      (∀ name d v, c.schema.lookup name = some d → d.group = none → c.value name = .ok v →
        v.isNull = true → d.resolve none = .ok v) ∧
      ∀ name inner, Table.find? name c.groups = some inner → inner.NullsByDefault := by
  constructor
  · refine fun hc => ⟨fun name => hc ⟨[], name⟩, fun name inner hf path d v hd hg hv => ?_⟩
    obtain ⟨e, hl, he⟩ := h.declared hf
    refine hc ⟨name :: path.parents, path.leaf⟩ d v ((Schema.at?_of_group hl he).trans hd) hg ?_
    rw [getAt_of_group hl hf]
    exact hv
  · rintro ⟨hsingle, hgroup⟩ ⟨parents, leaf⟩ d v hd hg hv
    cases parents with
    | nil => exact hsingle leaf d v hd hg hv
    | cons name rest =>
        obtain ⟨e, t, hl, he, hd⟩ := Schema.at?_cons_eq_some.1 hd
        obtain ⟨inner, hf, rfl⟩ := h.group_of_lookup hl he
        rw [getAt_of_group hl hf] at hv
        exact hgroup name inner hf ⟨rest, leaf⟩ d v hd hg hv

theorem Genuine.exists_resolve (h : c.Genuine) (hs : c.Shaped) (hl : c.schema.lookup name = some d)
    (hg : d.group = none) (hv : c.value name = .ok v) : ∃ given, d.resolve given = .ok v := by
  rw [hs.value_of_single hl hg] at hv
  split at hv
  · next w hf =>
      obtain ⟨e, raw, he, _, hmade⟩ := h.made hf
      obtain rfl := Option.some.inj (hl.symm.trans he)
      exact ⟨some raw, hmade.trans hv⟩
  · exact ⟨none, hv⟩

theorem update_entriesOf (c : Config) (batch : Table Value) :
    c.update (.map (Value.entriesOf batch)) = c.setAll (Value.entriesOf batch) := by
  rw [update, strayKey?_entriesOf]

theorem set_fresh_single (hl : s.lookup name = some d) (hg : d.group = none)
    (hv : d.resolve (some v) = .ok v) :
    (fresh s).set name v = .done ((fresh s).withValue name v) := by
  have ht : (fresh s).target name = .ok (.setting d) :=
    target_of_single (frozen_fresh s) (by rwa [schema_fresh]) hg
  rw [set_of_setting ht, assign, hv, (Schema.lookup_some hl).2]

theorem set_fresh_group (hs : s.Proper) (hl : s.lookup name = some d) (hg : d.group = some t)
    (entries : List (Value × Value)) :
    (fresh s).set name (.map entries) =
      ((fresh t).update (.map entries)).into ((fresh s).withGroup name) := by
  have hlookup : (fresh s).schema.lookup name = some d := by rwa [schema_fresh]
  have hf : Table.find? name (fresh s).groups = some (fresh t) := by
    rw [find?_groups_fresh, hs.group?_eq, hl, Option.bind_some, hg]
    rfl
  exact (wellFormed_fresh hs).set_of_group (frozen_fresh s) (by rwa [schema_fresh]) hlookup
    (nested_eq_ok.2 ⟨⟨d, hlookup⟩, hf⟩) entries

/-- The configuration that the batch leaves of a fresh one. -/
def reloaded (s : Schema) (batch : Table Value) : Config :=
  ((fresh s).update (.map (Value.entriesOf batch))).state

theorem schema_reloaded (s : Schema) (batch : Table Value) : (reloaded s batch).schema = s :=
  (changes_update (fresh s) (.map (Value.entriesOf batch))).schema.trans (schema_fresh s)

/-- The configuration is written out as the batch and comes back when that is read, but for its
null values. -/
structure Reloads (c : Config) (batch : Table Value) : Prop where
  written : c.serialize = .ok (.map (Value.entriesOf batch))
  accepted : ((fresh c.schema).update (.map (Value.entriesOf batch))).fault = none
  same_iff : (reloaded c.schema batch).same c = true ↔ c.NullsByDefault

/-- The batch is what the configuration is written out as, and its groups come back. -/
structure Prepared (c : Config) (batch : Table Value) : Prop where
  shaped : c.Shaped
  proper : c.schema.Proper
  genuine : c.Genuine
  idempotent : c.schema.Idempotent
  resolved : ∀ name d, c.schema.lookup name = some d → ∃ v, c.value name = .ok v
  sorted : Table.Sorted batch
  writes : ∀ name v, Table.find? name batch = some v ↔ c.Writes name v
  groups : ∀ name inner, Table.find? name c.groups = some inner → ∃ t, inner.Reloads t

namespace Prepared

theorem fault_set (h : c.Prepared batch) (hf : Table.find? name batch = some v) :
    ((fresh c.schema).set name v).fault = none := by
  have hw := (h.writes name v).1 hf
  obtain ⟨d, hl⟩ := hw.1
  cases hg : d.group with
  | none =>
      obtain ⟨hv, _⟩ := (writes_of_no_group hw.1 (h.shaped.no_group_of_single hl hg)).1 hw
      obtain ⟨given, hmade⟩ := h.genuine.exists_resolve h.shaped hl hg hv
      rw [set_fresh_single hl hg (h.idempotent.single hl hg given v hmade)]
      rfl
  | some t =>
      obtain ⟨inner, hi, rfl⟩ := h.shaped.group_of_lookup hl hg
      obtain ⟨u, hu⟩ := h.groups name inner hi
      obtain rfl := Except.ok.inj (hu.written.symm.trans ((writes_of_group hw.1 hi).1 hw))
      rw [set_fresh_group h.proper hl hg]
      exact hu.accepted

theorem accepted (h : c.Prepared batch) :
    ((fresh c.schema).update (.map (Value.entriesOf batch))).fault = none := by
  rw [update_entriesOf]
  exact (setAll_entriesOf h.sorted fun _ _ => h.fault_set).1

theorem agreeAt (h : c.Prepared batch) (name : String) :
    AgreeAt name (reloaded c.schema batch)
      (match Table.find? name batch with
        | some v => ((fresh c.schema).set name v).state
        | none => fresh c.schema) := by
  rw [reloaded, update_entriesOf]
  exact (setAll_entriesOf h.sorted fun _ _ => h.fault_set).2 name

/-- A single setting reads as before, but as its default if it was null. -/
theorem value_single (h : c.Prepared batch) (hl : c.schema.lookup name = some d)
    (hg : d.group = none) (hv : c.value name = .ok v) :
    (reloaded c.schema batch).value name = if v.isNull then d.resolve none else .ok v := by
  have hshaped : (reloaded c.schema batch).Shaped :=
    (shaped_fresh h.proper).changes (changes_update (fresh c.schema) _)
  have hwrites : ∀ w, c.Writes name w ↔ c.value name = .ok w ∧ w.isNull = false := fun _ =>
    writes_of_no_group ⟨d, hl⟩ (h.shaped.no_group_of_single hl hg)
  rw [hshaped.value_of_single (by rwa [schema_reloaded]) hg, (h.agreeAt name).value]
  by_cases hnull : v.isNull = true
  · have hnone : Table.find? name batch = none := by
      refine Option.eq_none_iff_forall_ne_some.2 fun w hw => ?_
      obtain ⟨hread, hnot⟩ := (hwrites w).1 ((h.writes name w).1 hw)
      obtain rfl := Except.ok.inj (hv.symm.trans hread)
      rw [hnull] at hnot
      cases hnot
    rw [hnone, if_pos hnull, values_fresh]
    rfl
  · obtain ⟨given, hmade⟩ := h.genuine.exists_resolve h.shaped hl hg hv
    have hsome := (h.writes name v).2 ((hwrites v).2 ⟨hv, Bool.eq_false_iff.2 hnull⟩)
    rw [hsome, if_neg hnull]
    simp only [set_fresh_single hl hg (h.idempotent.single hl hg given v hmade),
      Attempt.state_done, withValue, Table.find?_insert_self]

theorem value_group (h : c.Prepared batch) (hf : Table.find? name c.groups = some inner) :
    ∃ u, inner.Reloads u ∧
      (reloaded c.schema batch).value name = (reloaded inner.schema u).toValue := by
  obtain ⟨d, hl, hg⟩ := h.shaped.declared hf
  obtain ⟨u, hu⟩ := h.groups name inner hf
  have hsome := (h.writes name _).2 ((writes_of_group ⟨d, hl⟩ hf).2 hu.written)
  have hgroup := (h.agreeAt name).group
  rw [hsome] at hgroup
  simp only [set_fresh_group h.proper hl hg, Attempt.state_into, withGroup,
    Table.find?_insert_self] at hgroup
  exact ⟨u, hu, value_of_group (d := d) (by rwa [schema_reloaded]) hgroup⟩

theorem reloads (h : c.Prepared batch) (hw : c.serialize = .ok (.map (Value.entriesOf batch))) :
    c.Reloads batch := by
  refine ⟨hw, h.accepted, ?_⟩
  rw [Config.same_iff h.proper (schema_reloaded _ _), nullsByDefault_iff h.shaped]
  constructor
  · intro hsame
    refine ⟨fun name d v hl hg hv hnull => ?_, fun name inner hf => ?_⟩
    · obtain ⟨v', w, hv', hw, hvw⟩ := hsame name d hl
      obtain rfl := Except.ok.inj (hv.symm.trans hw)
      rw [h.value_single hl hg hv, if_pos hnull] at hv'
      rw [hv', (Value.same_null_iff hnull).1 hvw]
    · obtain ⟨d, hl, _⟩ := h.shaped.declared hf
      obtain ⟨v, w, hv, hw, hvw⟩ := hsame name d hl
      obtain ⟨u, hu, hgroup⟩ := h.value_group hf
      rw [hgroup] at hv
      rw [value_of_group hl hf] at hw
      refine hu.same_iff.1 ?_
      simp only [same, hv, hw]
      exact hvw
  · rintro ⟨hsingle, hgroups⟩ name d hl
    cases hg : d.group with
    | none =>
        obtain ⟨v, hv⟩ := h.resolved name d hl
        refine ⟨v, v, ?_, hv, Value.same_self v⟩
        rw [h.value_single hl hg hv]
        split_ifs with hnull
        · exact hsingle name d v hl hg hv hnull
        · rfl
    | some t =>
        obtain ⟨inner, hf, _⟩ := h.shaped.group_of_lookup hl hg
        obtain ⟨u, hu, hgroup⟩ := h.value_group hf
        have hsame := hu.same_iff.2 (hgroups name inner hf)
        unfold same at hsame
        split at hsame
        · next hv hw =>
            exact ⟨_, _, hgroup.trans hv, (value_of_group hl hf).trans hw, hsame⟩
        · cases hsame

end Prepared

/-- A shaped configuration that resolves comes back, if the constructors keep what they have
returned. -/
theorem exists_reloads (hs : c.Shaped) (hk : c.Known heap) (hgenuine : c.Genuine)
    (hidem : c.schema.Idempotent) (hresolves : ∃ whole, c.toValue = .ok whole) :
    ∃ batch, c.Reloads batch := by
  induction c using inductionOn with
  | step c ih =>
      have hproper := hk.here.proper
      have hvalues := (exists_toValue_iff hproper).1 hresolves
      have hgroups : ∀ name inner, Table.find? name c.groups = some inner →
          ∃ batch, inner.Reloads batch := by
        intro name inner hf
        obtain ⟨d, hl, hg⟩ := hs.declared hf
        refine ih name inner hf (hs.inside hf) (hk.inside hf) (hgenuine.inside hf)
          (hidem.group hl hg) ?_
        rw [← value_of_group hl hf]
        exact hvalues name d hl
      obtain ⟨batch, hwritten, hsorted, hwrites⟩ := exists_serialized hproper
        (fun name d hl _ => hvalues name d hl) fun name inner hf => by
          obtain ⟨batch, hb⟩ := hgroups name inner hf
          exact ⟨_, hb.written⟩
      have hprepared : c.Prepared batch :=
        ⟨hs, hproper, hgenuine, hidem, hvalues, hsorted, hwrites, hgroups⟩
      exact ⟨batch, hprepared.reloads hwritten⟩

end Config
end SettingsTree
