import SettingsTree.Proofs.Config.Copies
import SettingsTree.Proofs.Value.Maps

/-!
# What the names of a configuration read as

A declared name reads as the map of its group, or else as what is stored, or else as its
default. A whole configuration resolves exactly if all its names do, and its map lists each
name with what it reads as.
-/
namespace SettingsTree.Config

variable {c : Config} {name : String} {d : Definition} {v : Value}
  {values : List (String × Value)} {groups : List (String × Except Fault Value)}
  {ds : List Definition} {fields : List (String × Value)}

theorem value_of_lookup (hl : c.schema.lookup name = some d) :
    c.value name = valueOf c.values (groupValues c.groups) d := by
  obtain rfl := (Schema.lookup_some hl).2
  simp only [value, get, definition_eq_ok.2 hl, valueOf, find?_groupValues]
  cases Table.find? d.name c.groups with
  | some inner => rfl
  | none =>
      cases Table.find? d.name c.values with
      | some v => rfl
      | none => cases d.resolve none <;> rfl

theorem value_of_group {inner : Config} (hl : c.schema.lookup name = some d)
    (hf : Table.find? name c.groups = some inner) : c.value name = inner.toValue := by
  simp only [value, get, definition_eq_ok.2 hl, hf]
  rfl

theorem valuesOf_eq_ok_iff :
    (∃ fields, valuesOf values groups ds = .ok fields) ↔
      ∀ d ∈ ds, ∃ v, valueOf values groups d = .ok v := by
  induction ds with
  | nil => simp [valuesOf]
  | cons d rest ih =>
      rw [List.forall_mem_cons, ← ih, valuesOf]
      cases valueOf values groups d with
      | error fault => simp
      | ok v => cases valuesOf values groups rest <;> simp [Except.map]

theorem mem_of_valuesOf (h : valuesOf values groups ds = .ok fields) :
    (name, v) ∈ fields ↔ ∃ d ∈ ds, d.name = name ∧ valueOf values groups d = .ok v := by
  induction ds generalizing fields with
  | nil =>
      obtain rfl := Except.ok.inj h
      simp
  | cons d rest ih =>
      rw [valuesOf] at h
      cases hd : valueOf values groups d with
      | error fault => simp [hd] at h
      | ok w =>
          rw [hd] at h
          cases hr : valuesOf values groups rest with
          | error fault => simp [hr, Except.map] at h
          | ok others =>
              rw [hr] at h
              obtain rfl := Except.ok.inj h
              rw [List.mem_cons, List.exists_mem_cons_iff, ih hr, hd, Prod.mk.injEq,
                Except.ok.injEq, eq_comm (a := name), eq_comm (a := v)]

theorem exists_toMap_iff (hs : c.schema.Proper) :
    (∃ fields, c.toMap = .ok fields) ↔
      ∀ name d, c.schema.lookup name = some d → ∃ v, c.value name = .ok v := by
  refine valuesOf_eq_ok_iff.trans ⟨fun h name d hl => ?_, fun h d hd => ?_⟩
  · rw [value_of_lookup hl]
    exact h d (Schema.lookup_some hl).1
  · have hl := hs.lookup_of_mem hd
    rw [← value_of_lookup hl]
    exact h d.name d hl

theorem mem_of_toMap (hs : c.schema.Proper) (h : c.toMap = .ok fields) :
    (name, v) ∈ fields ↔ (∃ d, c.schema.lookup name = some d) ∧ c.value name = .ok v := by
  refine (mem_of_valuesOf h).trans ⟨?_, ?_⟩
  · rintro ⟨d, hd, rfl, hv⟩
    have hl := hs.lookup_of_mem hd
    exact ⟨⟨d, hl⟩, (value_of_lookup hl).trans hv⟩
  · rintro ⟨⟨d, hl⟩, hv⟩
    obtain ⟨hd, hn⟩ := Schema.lookup_some hl
    exact ⟨d, hd, hn, (value_of_lookup hl).symm.trans hv⟩

/-- The table lists the declared names with what they read as. -/
structure Tabulated (c : Config) (t : Table Value) : Prop where
  sorted : Table.Sorted t
  find?_eq_some : ∀ name v, Table.find? name t = some v ↔
    (∃ d, c.schema.lookup name = some d) ∧ c.value name = .ok v

theorem Tabulated.find?_eq_none {t : Table Value} (h : c.Tabulated t)
    (hl : c.schema.lookup name = none) : Table.find? name t = none := by
  refine Option.eq_none_iff_forall_ne_some.2 fun v hv => ?_
  obtain ⟨⟨d, hd⟩, _⟩ := (h.find?_eq_some name v).1 hv
  rw [hl] at hd
  cases hd

theorem exists_of_valuesOf_eq_error {fault : Fault}
    (h : valuesOf values groups ds = .error fault) :
    ∃ d ∈ ds, valueOf values groups d = .error fault := by
  induction ds with
  | nil => cases h
  | cons d rest ih =>
      rw [valuesOf] at h
      cases hd : valueOf values groups d with
      | error first =>
          simp only [hd] at h
          exact ⟨d, List.mem_cons_self, hd.trans (congrArg Except.error (Except.error.inj h))⟩
      | ok v =>
          cases hr : valuesOf values groups rest with
          | ok others => simp [hd, hr, Except.map] at h
          | error later =>
              obtain ⟨e, he, hfault⟩ := ih (hr.trans (by simpa [hd, hr, Except.map] using h))
              exact ⟨e, List.mem_cons_of_mem _ he, hfault⟩

theorem fault_of_valueOf {fault : Fault}
    (hinside : ∀ inner, Table.find? d.name c.groups = some inner → inner.toValue = .error fault →
      ∃ setting reason, fault = .rejected setting reason)
    (h : valueOf c.values (groupValues c.groups) d = .error fault) :
    ∃ setting reason, fault = .rejected setting reason := by
  unfold valueOf at h
  rw [find?_groupValues] at h
  cases hf : Table.find? d.name c.groups with
  | some inner => exact hinside inner hf (by simpa [hf] using h)
  | none =>
      cases hv : Table.find? d.name c.values with
      | some v => simp [hf, hv] at h
      | none =>
          obtain ⟨reason, hreason⟩ := Definition.fault_of_resolve (by simpa [hf, hv] using h)
          exact ⟨d.name, reason, hreason⟩

/-- A whole configuration fails to resolve only where a constructor refuses its input. -/
theorem fault_of_toValue {fault : Fault} (h : c.toValue = .error fault) :
    ∃ setting reason, fault = .rejected setting reason := by
  induction c using inductionOn with
  | step c ih =>
      have hmap : c.toMap = .error fault := by
        rw [toValue_eq] at h
        cases hm : c.toMap with
        | ok fields => simp [hm, Except.map] at h
        | error other => simpa [hm, Except.map] using h
      obtain ⟨d, _, hd⟩ := exists_of_valuesOf_eq_error hmap
      exact fault_of_valueOf (ih d.name) hd

theorem fault_of_value {fault : Fault} (h : c.value name = .error fault) :
    fault = .unknownSetting name ∨ ∃ setting reason, fault = .rejected setting reason := by
  cases hl : c.schema.lookup name with
  | none =>
      left
      simp only [value, get, definition, hl] at h
      exact (Except.error.inj h).symm
  | some d =>
      right
      rw [value_of_lookup hl] at h
      exact fault_of_valueOf (fun _ _ => fault_of_toValue) h

/-- A configuration that resolves is the map of a table. -/
theorem exists_tabulated {whole : Value} (hs : c.schema.Proper) (h : c.toValue = .ok whole) :
    ∃ t, c.Tabulated t ∧ whole = .map (Value.entriesOf t) := by
  rw [toValue_eq] at h
  cases hm : c.toMap with
  | error fault => simp [hm, Except.map] at h
  | ok fields =>
      rw [hm] at h
      obtain rfl := Except.ok.inj h
      refine ⟨_, ⟨Table.sorted_ofList fields, fun name v => ?_⟩, Value.ofFields_eq fields⟩
      refine ⟨fun hf => (mem_of_toMap hs hm).1 (Table.mem_of_find?_ofList hf), fun hv => ?_⟩
      refine Table.find?_ofList ((mem_of_toMap hs hm).2 hv) fun w hw => ?_
      exact Except.ok.inj (((mem_of_toMap hs hm).1 hw).2.symm.trans hv.2)

theorem exists_toValue_iff (hs : c.schema.Proper) :
    (∃ whole, c.toValue = .ok whole) ↔
      ∀ name d, c.schema.lookup name = some d → ∃ v, c.value name = .ok v := by
  rw [← exists_toMap_iff hs, toValue_eq]
  cases c.toMap <;> simp [Except.map]

theorem Tabulated.exists_find?_iff {t : Table Value} {whole : Value} (h : c.Tabulated t)
    (hs : c.schema.Proper) (hw : c.toValue = .ok whole) :
    (∃ v, Table.find? name t = some v) ↔ name ∈ c.schema.names := by
  rw [← Schema.exists_lookup_iff]
  constructor
  · rintro ⟨v, hv⟩
    exact ((h.find?_eq_some name v).1 hv).1
  · rintro ⟨d, hl⟩
    obtain ⟨v, hv⟩ := (exists_toValue_iff hs).1 ⟨_, hw⟩ name d hl
    exact ⟨v, (h.find?_eq_some name v).2 ⟨⟨d, hl⟩, hv⟩⟩

/-- Configurations are equal exactly if both resolve, declare the same names, and read as equal
values under each of them. -/
theorem same_iff_reads {a b : Config} (ha : a.schema.Proper) (hb : b.schema.Proper) :
    a.same b = true ↔ (∃ whole, a.toValue = .ok whole) ∧ (∃ whole, b.toValue = .ok whole) ∧
      (∀ name, name ∈ a.schema.names ↔ name ∈ b.schema.names) ∧
      ∀ name ∈ a.schema.names, ∃ v w, a.value name = .ok v ∧ b.value name = .ok w ∧
        v.same w = true := by
  constructor
  · intro h
    unfold same at h
    split at h
    · next hx hy =>
        obtain ⟨t, ht, rfl⟩ := exists_tabulated ha hx
        obtain ⟨u, hu, rfl⟩ := exists_tabulated hb hy
        have hrel := (Value.same_entriesOf_iff ht.sorted hu.sorted).1 h
        refine ⟨⟨_, hx⟩, ⟨_, hy⟩, fun name => ?_, fun name hm => ?_⟩
        · rw [← ht.exists_find?_iff ha hx, ← hu.exists_find?_iff hb hy]
          have hname := hrel name
          generalize Table.find? name t = found, Table.find? name u = other at hname
          cases hname <;> simp
        · obtain ⟨v, hv⟩ := (ht.exists_find?_iff ha hx).2 hm
          have hname := hrel name
          rw [hv] at hname
          cases hw : Table.find? name u with
          | none =>
              rw [hw] at hname
              cases hname
          | some w =>
              rw [hw] at hname
              cases hname with
              | some hsame =>
                  exact ⟨v, w, ((ht.find?_eq_some name v).1 hv).2,
                    ((hu.find?_eq_some name w).1 hw).2, hsame⟩
    · cases h
  · rintro ⟨⟨x, hx⟩, ⟨y, hy⟩, hnames, hvalues⟩
    obtain ⟨t, ht, rfl⟩ := exists_tabulated ha hx
    obtain ⟨u, hu, rfl⟩ := exists_tabulated hb hy
    simp only [same, hx, hy]
    refine (Value.same_entriesOf_iff ht.sorted hu.sorted).2 fun name => ?_
    by_cases hm : name ∈ a.schema.names
    · obtain ⟨v, w, hv, hw, hsame⟩ := hvalues name hm
      rw [(ht.find?_eq_some name v).2 ⟨Schema.exists_lookup_iff.2 hm, hv⟩,
        (hu.find?_eq_some name w).2 ⟨Schema.exists_lookup_iff.2 ((hnames name).1 hm), hw⟩]
      exact .some hsame
    · have hnone : ∀ {s : Schema}, name ∉ s.names → s.lookup name = none := fun hn =>
        Definition.find?_eq_none_iff.2 hn
      rw [ht.find?_eq_none (hnone hm), hu.find?_eq_none (hnone fun h => hm ((hnames name).2 h))]
      exact .none

theorem same_iff {c' : Config} (hs : c.schema.Proper) (hschema : c'.schema = c.schema) :
    c'.same c = true ↔ ∀ name d, c.schema.lookup name = some d →
      ∃ v w, c'.value name = .ok v ∧ c.value name = .ok w ∧ v.same w = true := by
  have hs' : c'.schema.Proper := hschema ▸ hs
  rw [same_iff_reads hs' hs, hschema]
  constructor
  · rintro ⟨_, _, _, hvalues⟩ name d hl
    exact hvalues name (Schema.exists_lookup_iff.1 ⟨d, hl⟩)
  · intro h
    refine ⟨(exists_toValue_iff hs').2 fun name d hl => ?_,
      (exists_toValue_iff hs).2 fun name d hl => ?_, fun _ => Iff.rfl, fun name hm => ?_⟩
    · obtain ⟨v, _, hv, _⟩ := h name d (hschema ▸ hl)
      exact ⟨v, hv⟩
    · obtain ⟨_, w, _, hw, _⟩ := h name d hl
      exact ⟨w, hw⟩
    · obtain ⟨d, hl⟩ := Schema.exists_lookup_iff.2 hm
      exact h name d hl

end SettingsTree.Config
