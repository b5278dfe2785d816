import SettingsTree.Config.Emission
import SettingsTree.Proofs.Config.Values

/-!
# What a configuration is written out as

If all names resolve, a configuration is written out as the map of a table. It has the single
settings whose values are not null, and every group as it is written out itself.
-/
namespace SettingsTree

namespace Emission
variable {name : String} {v : Value} {values : List (String × Value)}
  {groups : List (String × Emission)} {ds : List Definition}

/-- The settings that are handed over resolve if all settings do, and only those with a null
value are missing. -/
theorem exists_resolved
    (h : ∀ d ∈ ds, Table.find? d.name groups = none → ∃ v, Config.valueOf values [] d = .ok v) :
    ∃ plain, resolved (settingsOf values groups ds) = .ok plain ∧ ∀ name v,
      (name, v) ∈ plain ↔ ∃ d ∈ ds, d.name = name ∧ Table.find? name groups = none ∧
        Config.valueOf values [] d = .ok v ∧ v.isNull = false := by
  induction ds with
  | nil => exact ⟨[], rfl, by simp⟩
  | cons d rest ih =>
      rw [List.forall_mem_cons] at h
      obtain ⟨plain, hplain, hmem⟩ := ih h.2
      rw [settingsOf]
      cases hg : Table.find? d.name groups with
      | some inner =>
          refine ⟨plain, hplain, fun name v => (hmem name v).trans ?_⟩
          rw [List.exists_mem_cons_iff, or_iff_right]
          rintro ⟨rfl, hnone, _⟩
          rw [hg] at hnone
          cases hnone
      | none =>
          obtain ⟨v, hv⟩ := h.1 hg
          simp only [Option.isSome_none, Bool.false_eq_true, if_false, hv]
          by_cases hnull : v.isNull = true
          · rw [if_pos hnull]
            refine ⟨plain, hplain, fun name w => (hmem name w).trans ?_⟩
            rw [List.exists_mem_cons_iff, or_iff_right]
            rintro ⟨_, _, hw, hnot⟩
            obtain rfl := Except.ok.inj (hv.symm.trans hw)
            rw [hnull] at hnot
            cases hnot
          · rw [if_neg hnull, resolved, hplain]
            refine ⟨(d.name, v) :: plain, rfl, fun name w => ?_⟩
            rw [List.mem_cons, List.exists_mem_cons_iff, hmem, Prod.mk.injEq]
            refine or_congr_left ⟨?_, ?_⟩
            · rintro ⟨rfl, rfl⟩
              exact ⟨rfl, hg, hv, Bool.eq_false_iff.2 hnull⟩
            · rintro ⟨rfl, _, hw, _⟩
              exact ⟨rfl, Except.ok.inj (hw.symm.trans hv)⟩

theorem exists_groupFields (ds : List Definition)
    (h : ∀ name inner, Table.find? name groups = some inner → ∃ v, inner.toValue = .ok v) :
    ∃ fields, groupFields (groupsOf groups ds) = .ok fields ∧ ∀ name v,
      (name, v) ∈ fields ↔ ∃ d ∈ ds, d.name = name ∧
        ∃ inner, Table.find? name groups = some inner ∧ inner.toValue = .ok v := by
  induction ds with
  | nil => exact ⟨[], rfl, by simp⟩
  | cons d rest ih =>
      obtain ⟨fields, hfields, hmem⟩ := ih
      rw [groupsOf]
      cases hg : Table.find? d.name groups with
      | none =>
          refine ⟨fields, hfields, fun name v => (hmem name v).trans ?_⟩
          rw [List.exists_mem_cons_iff, or_iff_right]
          rintro ⟨rfl, inner, hi, _⟩
          rw [hg] at hi
          cases hi
      | some inner =>
          obtain ⟨v, hv⟩ := h d.name inner hg
          simp only [groupFields, hv, hfields]
          refine ⟨(d.name, v) :: fields, rfl, fun name w => ?_⟩
          rw [List.mem_cons, List.exists_mem_cons_iff, hmem, Prod.mk.injEq]
          refine or_congr_left ⟨?_, ?_⟩
          · rintro ⟨rfl, rfl⟩
            exact ⟨rfl, inner, hg, hv⟩
          · rintro ⟨rfl, other, ho, hw⟩
            obtain rfl := Option.some.inj (hg.symm.trans ho)
            exact ⟨rfl, Except.ok.inj (hw.symm.trans hv)⟩

end Emission

namespace Config
variable {c inner : Config} {name : String} {v : Value}

theorem find?_groupEmissions (name : String) (groups : List (String × Config)) :
    Table.find? name (groupEmissions groups) = (Table.find? name groups).map emission := by
  induction groups with
  | nil => rfl
  | cons head rest ih =>
      obtain ⟨key, inner⟩ := head
      by_cases same : key = name <;> simp [groupEmissions, Table.find?_cons, same, ih]

theorem serialize_eq_ok : c.serialize = .ok v ↔ c.emission.toValue = .ok v := by
  unfold serialize
  cases c.emission.toValue <;> simp [Except.mapError]

/-- A declared name is written out with the value: as the group is written out, or with what
a single setting reads as, if that is not null. -/
def Writes (c : Config) (name : String) (v : Value) : Prop :=
  (∃ d, c.schema.lookup name = some d) ∧
    match Table.find? name c.groups with
    | some inner => inner.serialize = .ok v
    | none => c.value name = .ok v ∧ v.isNull = false

theorem Writes.unique {w : Value} (h : c.Writes name v) (h' : c.Writes name w) : v = w := by
  obtain ⟨_, hv⟩ := h
  obtain ⟨_, hw⟩ := h'
  cases hf : Table.find? name c.groups with
  | some inner =>
      rw [hf] at hv hw
      exact Except.ok.inj (hv.symm.trans hw)
  | none =>
      rw [hf] at hv hw
      exact Except.ok.inj (hv.1.symm.trans hw.1)

theorem writes_of_group (hl : ∃ d, c.schema.lookup name = some d)
    (hf : Table.find? name c.groups = some inner) :
    c.Writes name v ↔ inner.serialize = .ok v := by
  rw [Writes, hf, and_iff_right hl]

theorem writes_of_no_group (hl : ∃ d, c.schema.lookup name = some d)
    (hf : Table.find? name c.groups = none) :
    c.Writes name v ↔ c.value name = .ok v ∧ v.isNull = false := by
  rw [Writes, hf, and_iff_right hl]

theorem emission_eq (c : Config) :
    c.emission = .mk
      (Emission.settingsOf c.values (groupEmissions c.groups) c.schema.definitions)
      (Emission.groupsOf (groupEmissions c.groups) c.schema.definitions) := by
  cases c
  rw [emission]

theorem exists_fields (hs : c.schema.Proper)
    (hvalues : ∀ name d, c.schema.lookup name = some d → Table.find? name c.groups = none →
      ∃ v, c.value name = .ok v)
    (hgroups : ∀ name inner, Table.find? name c.groups = some inner →
      ∃ v, inner.serialize = .ok v) :
    ∃ fields, c.serialize = .ok (Value.ofFields fields) ∧
      ∀ name v, (name, v) ∈ fields ↔ c.Writes name v := by
  have hnone : ∀ {name}, Table.find? name (groupEmissions c.groups) = none ↔
      Table.find? name c.groups = none := by
    intro name
    rw [find?_groupEmissions, Option.map_eq_none_iff]
  have hvalue : ∀ d ∈ c.schema.definitions, Table.find? d.name c.groups = none →
      valueOf c.values [] d = c.value d.name := by
    intro d hd hg
    rw [value_of_lookup (hs.lookup_of_mem hd), valueOf, valueOf, find?_groupValues, hg]
    rfl
  have hresolve : ∀ d ∈ c.schema.definitions,
      Table.find? d.name (groupEmissions c.groups) = none →
      ∃ v, valueOf c.values [] d = .ok v := by
    intro d hd hg
    rw [hvalue d hd (hnone.1 hg)]
    exact hvalues d.name d (hs.lookup_of_mem hd) (hnone.1 hg)
  have hemit : ∀ name emitted, Table.find? name (groupEmissions c.groups) = some emitted →
      ∃ v, emitted.toValue = .ok v := by
    intro name emitted he
    rw [find?_groupEmissions] at he
    obtain ⟨inner, hi, rfl⟩ := Option.map_eq_some_iff.1 he
    obtain ⟨v, hv⟩ := hgroups name inner hi
    exact ⟨v, serialize_eq_ok.1 hv⟩
  obtain ⟨plain, hplain, hsingle⟩ := Emission.exists_resolved hresolve
  obtain ⟨grouped, hgrouped, hgroup⟩ := Emission.exists_groupFields c.schema.definitions hemit
  refine ⟨plain ++ grouped, ?_, fun name v => ?_⟩
  · rw [serialize_eq_ok, emission_eq, Emission.toValue, hplain]
    simp only [hgrouped]
    rfl
  · rw [List.mem_append, hsingle, hgroup]
    constructor
    · rintro (⟨d, hd, rfl, hg, hv, hnull⟩ | ⟨d, hd, rfl, emitted, he, hv⟩)
      · rw [hvalue d hd (hnone.1 hg)] at hv
        exact (writes_of_no_group ⟨d, hs.lookup_of_mem hd⟩ (hnone.1 hg)).2 ⟨hv, hnull⟩
      · rw [find?_groupEmissions] at he
        obtain ⟨inner, hi, rfl⟩ := Option.map_eq_some_iff.1 he
        exact (writes_of_group ⟨d, hs.lookup_of_mem hd⟩ hi).2 (serialize_eq_ok.2 hv)
    · intro h
      obtain ⟨d, hl⟩ := h.1
      obtain ⟨hd, rfl⟩ := Schema.lookup_some hl
      cases hf : Table.find? d.name c.groups with
      | none =>
          obtain ⟨hv, hnull⟩ := (writes_of_no_group h.1 hf).1 h
          rw [← hvalue d hd hf] at hv
          exact .inl ⟨d, hd, rfl, hnone.2 hf, hv, hnull⟩
      | some inner =>
          have hv := serialize_eq_ok.1 ((writes_of_group h.1 hf).1 h)
          exact .inr ⟨d, hd, rfl, inner.emission, by rw [find?_groupEmissions, hf]; rfl, hv⟩

/-- If all settings resolve and all groups can be written out, then so can the configuration:
as the map of a table that has each name with its value. -/
theorem exists_serialized (hs : c.schema.Proper)
    (hvalues : ∀ name d, c.schema.lookup name = some d → Table.find? name c.groups = none →
      ∃ v, c.value name = .ok v)
    (hgroups : ∀ name inner, Table.find? name c.groups = some inner →
      ∃ v, inner.serialize = .ok v) :
    ∃ t, c.serialize = .ok (.map (Value.entriesOf t)) ∧ Table.Sorted t ∧
      ∀ name v, Table.find? name t = some v ↔ c.Writes name v := by
  obtain ⟨fields, hfields, hmem⟩ := exists_fields hs hvalues hgroups
  rw [Value.ofFields_eq] at hfields
  refine ⟨_, hfields, Table.sorted_ofList fields, fun name v => ⟨fun hf => ?_, fun hw => ?_⟩⟩
  · exact (hmem name v).1 (Table.mem_of_find?_ofList hf)
  · refine Table.find?_ofList ((hmem name v).2 hw) fun other ho => ?_
    exact ((hmem name other).1 ho).unique hw

end Config
end SettingsTree
