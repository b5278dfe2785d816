import SettingsTree.Config.Copy
import SettingsTree.Proofs.Schema.Depth
import SettingsTree.Proofs.Tables

/-!
# The groups of copied configurations

Finalizing and duplicating change every group in its place. A fresh or rebound
configuration has one group for every group of the schema, which for a rebound
one is the rebound group of that name, or else fresh. Every proof about all
depths goes through `Config.inductionOn`: what holds of a configuration whenever
it holds of its groups holds of every configuration.
-/
namespace SettingsTree.Config

section Induction
variable {P : Config → Prop}

mutual

theorem inductionOn (step : ∀ c : Config,
    (∀ name inner, Table.find? name c.groups = some inner → P inner) → P c) : ∀ c, P c
  | ⟨_, _, groups, _⟩ => step _ fun name inner h => inductionOn_groups step groups name inner h

theorem inductionOn_groups (step : ∀ c : Config,
    (∀ name inner, Table.find? name c.groups = some inner → P inner) → P c) :
    ∀ (groups : List (String × Config)) (name : String) (inner : Config),
      Table.find? name groups = some inner → P inner
  | [], _, _, h => by simp at h
  | (key, c) :: rest, name, inner, h => by
      rw [Table.find?_cons] at h
      split_ifs at h
      · exact Option.some.inj h ▸ inductionOn step c
      · exact inductionOn_groups step rest name inner h

end

end Induction

@[simp] theorem values_duplicate (c : Config) : c.duplicate.values = c.values := by
  cases c; rfl

theorem duplicateGroups_eq (groups : List (String × Config)) :
    duplicateGroups groups = Table.mapEntries duplicate groups := by
  induction groups with
  | nil => rfl
  | cons head rest ih =>
      rw [duplicateGroups, ih]
      rfl

theorem groups_duplicate (c : Config) :
    c.duplicate.groups = Table.mapEntries duplicate c.groups := by
  cases c
  exact duplicateGroups_eq _

@[simp] theorem find?_groups_duplicate (c : Config) (name : String) :
    Table.find? name c.duplicate.groups = (Table.find? name c.groups).map duplicate := by
  rw [groups_duplicate, Table.find?_mapEntries]

theorem finalizeGroups_eq (groups : List (String × Config)) :
    finalizeGroups groups = Table.mapEntries finalize groups := by
  induction groups with
  | nil => rfl
  | cons head rest ih =>
      rw [finalizeGroups, ih]
      rfl

/-- Freezing again changes nothing, at no depth. -/
theorem finalize_of_frozen {c : Config} (h : c.frozen = true) : c.finalize = c := by
  obtain ⟨schema, values, groups, frozen⟩ := c
  obtain rfl : frozen = true := h
  rw [finalize]

@[simp] theorem schema_finalize (c : Config) : c.finalize.schema = c.schema := by
  obtain ⟨schema, values, groups, _ | _⟩ := c <;> rfl

@[simp] theorem values_finalize (c : Config) : c.finalize.values = c.values := by
  obtain ⟨schema, values, groups, _ | _⟩ := c <;> rfl

theorem groups_finalize {c : Config} (h : c.frozen = false) :
    c.finalize.groups = Table.mapEntries finalize c.groups := by
  obtain ⟨schema, values, groups, frozen⟩ := c
  obtain rfl : frozen = false := h
  rw [finalize]
  exact finalizeGroups_eq groups

theorem sorted_freshGroups (ds : List Definition) : Table.Sorted (freshGroups ds) := by
  induction ds with
  | nil => exact Table.sorted_nil
  | cons d rest ih =>
      obtain ⟨stamp, name, fallback, construct, reader, _ | inner⟩ := d
      · exact ih
      · exact ih.insert name (fresh inner)

theorem find?_freshGroups (name : String) (ds : List Definition) :
    Table.find? name (freshGroups ds) =
      (ds.findSome? fun d => if d.name = name then d.group else none).map fresh := by
  induction ds with
  | nil => rfl
  | cons d rest ih =>
      obtain ⟨stamp, key, fallback, construct, reader, _ | inner⟩ := d
      · rw [freshGroups, ih, List.findSome?_cons]
        by_cases h : key = name <;> simp [h]
      · rw [freshGroups, Table.find?_insert, ih, List.findSome?_cons]
        by_cases h : key = name
        · simp [h]
        · simp [h, Ne.symm h]

@[simp] theorem find?_groups_fresh (s : Schema) (name : String) :
    Table.find? name (fresh s).groups = (s.group? name).map fresh := by
  rw [groups_fresh, find?_freshGroups]
  rfl

/-- What becomes of the group under a name when its schema is the given one. -/
def rebindGroup (old : Config) (name : String) (inner : Schema) : Config :=
  match Table.find? name old.groups with
  | some before => before.rebind inner
  | none => fresh inner

theorem sorted_rebindGroups (old : Config) (ds : List Definition) :
    Table.Sorted (rebindGroups old ds) := by
  induction ds with
  | nil => exact Table.sorted_nil
  | cons d rest ih =>
      obtain ⟨stamp, name, fallback, construct, reader, _ | inner⟩ := d
      · exact ih
      · exact ih.insert name _

theorem find?_rebindGroups (old : Config) (name : String) (ds : List Definition) :
    Table.find? name (rebindGroups old ds) =
      (ds.findSome? fun d => if d.name = name then d.group else none).map
        (old.rebindGroup name) := by
  induction ds with
  | nil => rfl
  | cons d rest ih =>
      obtain ⟨stamp, key, fallback, construct, reader, _ | inner⟩ := d
      · rw [rebindGroups, ih, List.findSome?_cons]
        by_cases h : key = name <;> simp [h]
      · rw [rebindGroups, Table.find?_insert, ih, List.findSome?_cons]
        by_cases h : key = name
        · subst h
          cases hf : Table.find? key old.groups <;> simp [rebindGroup, hf]
        · simp [h, Ne.symm h]

@[simp] theorem find?_groups_rebind (old : Config) (s : Schema) (name : String) :
    Table.find? name (old.rebind s).groups = (s.group? name).map (old.rebindGroup name) := by
  cases s
  exact find?_rebindGroups old name _

theorem values_rebind (old : Config) (s : Schema) :
    (old.rebind s).values = old.keptValues s.definitions := by
  cases s; rfl

theorem sorted_keptValues (old : Config) (ds : List Definition) :
    Table.Sorted (old.keptValues ds) := by
  induction ds with
  | nil => exact Table.sorted_nil
  | cons d rest ih =>
      rw [keptValues]
      split
      · exact ih.insert d.name _
      · exact ih

/-- A value is kept exactly for a single setting that is the same definition as before. -/
theorem keptValue?_eq_some {old : Config} {d : Definition} {v : Value} :
    old.keptValue? d = some v ↔
      d.group = none ∧ ∃ before, old.schema.lookup d.name = some before ∧
        before.stamp = d.stamp ∧ Table.find? d.name old.values = some v := by
  unfold keptValue?
  cases d.group <;> cases old.schema.lookup d.name <;> simp

theorem find?_keptValues (old : Config) (name : String) {ds : List Definition}
    (hn : (ds.map Definition.name).Nodup) :
    Table.find? name (old.keptValues ds) = (Definition.find? name ds).bind old.keptValue? := by
  induction ds with
  | nil => rfl
  | cons d rest ih =>
      rw [List.map_cons, List.nodup_cons] at hn
      have hr := ih hn.2
      rw [keptValues, Definition.find?]
      by_cases he : d.name = name
      · -- The name does not come again, so nothing later can be found under it.
        have hnone : Definition.find? name rest = none := by
          cases hf : Definition.find? name rest with
          | none => rfl
          | some e =>
              obtain ⟨hm, hen⟩ := Definition.mem_of_find? hf
              exact absurd (he.trans hen.symm ▸ List.mem_map_of_mem hm) hn.1
        rw [if_pos he]
        cases hk : old.keptValue? d with
        | some v => simp [he, hk]
        | none => simp [hr, hnone, hk]
      · rw [if_neg he, ← hr]
        cases old.keptValue? d with
        | some v => exact Table.find?_insert_of_ne (Ne.symm he) v _
        | none => rfl

theorem find?_values_rebind (old : Config) {s : Schema} (hs : s.Proper) (name : String) :
    Table.find? name (old.rebind s).values = (s.lookup name).bind old.keptValue? := by
  rw [values_rebind]
  exact find?_keptValues old name hs.distinct

end SettingsTree.Config
