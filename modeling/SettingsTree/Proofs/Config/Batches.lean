import SettingsTree.Proofs.Config.Changes
import SettingsTree.Proofs.Value.Maps

/-!
# Writes under different names

A write looks at nothing but its own name and changes nothing under other names. So the entries
of a batch with one entry for each name do not get in each other's way: the batch goes through
if each of them does on its own, and each name ends up as its entry alone would leave it.
-/
namespace SettingsTree.Config

/-- The configurations have the same under a name. -/
structure AgreeAt (name : String) (c c' : Config) : Prop where
  value : Table.find? name c.values = Table.find? name c'.values
  group : Table.find? name c.groups = Table.find? name c'.groups

variable {c c' : Config} {name other : String} {raw : Value}

namespace AgreeAt

theorem refl (name : String) (c : Config) : AgreeAt name c c := ⟨rfl, rfl⟩

theorem symm (h : AgreeAt name c c') : AgreeAt name c' c := ⟨h.value.symm, h.group.symm⟩

theorem trans {a b c : Config} (h : AgreeAt name a b) (h' : AgreeAt name b c) :
    AgreeAt name a c :=
  ⟨h.value.trans h'.value, h.group.trans h'.group⟩

theorem withValue (h : AgreeAt name c c') (v : Value) :
    AgreeAt name (c.withValue name v) (c'.withValue name v) :=
  ⟨(Table.find?_insert_self ..).trans (Table.find?_insert_self ..).symm, h.group⟩

theorem withGroup (h : AgreeAt name c c') (inner : Config) :
    AgreeAt name (c.withGroup name inner) (c'.withGroup name inner) :=
  ⟨h.value, (Table.find?_insert_self ..).trans (Table.find?_insert_self ..).symm⟩

end AgreeAt

/-- A write leaves the configuration as it was, or stores a value or a group under its name. -/
theorem state_set (c : Config) (name : String) (raw : Value) :
    (c.set name raw).state = c ∨ (∃ v, (c.set name raw).state = c.withValue name v) ∨
      ∃ inner, (c.set name raw).state = c.withGroup name inner := by
  cases ht : c.target name with
  | error fault =>
      rw [set_of_refused ht raw]
      exact .inl rfl
  | ok target =>
      cases target with
      | setting d =>
          rw [set_of_setting ht, assign]
          cases d.resolve (some raw) with
          | error fault => exact .inl rfl
          | ok v => exact .inr (.inl ⟨v, by rw [(setting_of_target ht).2.1]; rfl⟩)
      | group inner =>
          by_cases hm : ∃ entries, raw = .map entries
          · obtain ⟨entries, rfl⟩ := hm
            rw [set, ht]
            cases strayKey? entries with
            | some key => exact .inl rfl
            | none => exact .inr (.inr ⟨_, rfl⟩)
          · rw [set_of_group_of_not_map ht fun entries he => hm ⟨entries, he⟩]
            exact .inl rfl

theorem set_frame (c : Config) (name : String) (raw : Value) :
    (c.set name raw).state.schema = c.schema ∧ (c.set name raw).state.frozen = c.frozen ∧
      ∀ other, other ≠ name → AgreeAt other (c.set name raw).state c := by
  rcases c.state_set name raw with h | ⟨v, h⟩ | ⟨inner, h⟩
  · rw [h]
    exact ⟨rfl, rfl, fun other _ => .refl other c⟩
  · rw [h]
    exact ⟨rfl, rfl, fun other hne => ⟨Table.find?_insert_of_ne hne v _, rfl⟩⟩
  · rw [h]
    exact ⟨rfl, rfl, fun other hne => ⟨rfl, Table.find?_insert_of_ne hne inner _⟩⟩

theorem target_congr (hs : c.schema = c'.schema) (hz : c.frozen = c'.frozen)
    (h : AgreeAt name c c') : c.target name = c'.target name := by
  rw [target, target, definition, definition, hs, hz, h.group]

theorem set_congr (hs : c.schema = c'.schema) (hz : c.frozen = c'.frozen)
    (h : AgreeAt name c c') (raw : Value) :
    (c.set name raw).fault = (c'.set name raw).fault ∧
      AgreeAt name (c.set name raw).state (c'.set name raw).state := by
  have ht := target_congr hs hz h
  cases hc : c.target name with
  | error fault =>
      have hc' := ht.symm.trans hc
      rw [set_of_refused hc, set_of_refused hc']
      exact ⟨rfl, h⟩
  | ok target =>
      have hc' := ht.symm.trans hc
      cases target with
      | setting d =>
          rw [set_of_setting hc, set_of_setting hc', assign, assign, (setting_of_target hc).2.1]
          cases d.resolve (some raw) with
          | error fault => exact ⟨rfl, h⟩
          | ok v => exact ⟨rfl, h.withValue v⟩
      | group inner =>
          by_cases hm : ∃ entries, raw = .map entries
          · obtain ⟨entries, rfl⟩ := hm
            rw [set, set, hc, hc']
            cases strayKey? entries with
            | some key => exact ⟨rfl, h⟩
            | none => exact ⟨rfl, h.withGroup _⟩
          · have hne := fun entries he => hm ⟨entries, he⟩
            rw [set_of_group_of_not_map hc hne, set_of_group_of_not_map hc' hne]
            exact ⟨rfl, h⟩

theorem strayKey?_entriesOf (t : Table Value) : strayKey? (Value.entriesOf t) = none := by
  induction t with
  | nil => rfl
  | cons head rest ih => exact ih

theorem setAll_entriesOf_cons (c : Config) (name : String) (raw : Value) (rest : Table Value) :
    c.setAll (Value.entriesOf ((name, raw) :: rest)) =
      (c.set name raw).andThen fun after => after.setAll (Value.entriesOf rest) := by
  rw [Value.entriesOf_cons, setAll]

/-- The entries of a batch with distinct names act as if each of them were alone. -/
theorem setAll_entriesOf {t : Table Value} (ht : Table.Sorted t)
    (h : ∀ name raw, Table.find? name t = some raw → (c.set name raw).fault = none) :
    (c.setAll (Value.entriesOf t)).fault = none ∧ ∀ name,
      AgreeAt name (c.setAll (Value.entriesOf t)).state
        (match Table.find? name t with
          | some raw => (c.set name raw).state
          | none => c) := by
  induction t generalizing c with
  | nil => exact ⟨rfl, fun name => .refl name c⟩
  | cons head rest ih =>
      obtain ⟨key, raw⟩ := head
      obtain ⟨hschema, hfrozen, hothers⟩ := c.set_frame key raw
      have hfirst := h key raw (by rw [Table.find?_cons, if_pos rfl])
      have hne : ∀ {name v}, Table.find? name rest = some v → name ≠ key := by
        rintro name v hv rfl
        rw [ht.find?_rest] at hv
        cases hv
      have hwrites : ∀ name v, Table.find? name rest = some v →
          ((c.set key raw).state.set name v).fault = none := by
        intro name v hv
        rw [(set_congr hschema hfrozen (hothers name (hne hv)) v).1]
        refine h name v ?_
        rw [Table.find?_cons, if_neg (Ne.symm (hne hv)), hv]
      obtain ⟨hfault, hstate⟩ := ih ht.rest hwrites
      rw [setAll_entriesOf_cons, Attempt.andThen_of_fault_eq_none hfirst]
      refine ⟨hfault, fun name => (hstate name).trans ?_⟩
      rw [Table.find?_cons]
      by_cases he : key = name
      · rw [if_pos he, ← he, ht.find?_rest]
        exact .refl key _
      · rw [if_neg he]
        cases hv : Table.find? name rest with
        | none => exact hothers name (Ne.symm he)
        | some v => exact (set_congr hschema hfrozen (hothers name (Ne.symm he)) v).2

end SettingsTree.Config
