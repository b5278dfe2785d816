import SettingsTree.Config.Values
import SettingsTree.Proofs.Config.WellFormed
import SettingsTree.Proofs.Schema.Paths

/-!
# How copies read

A duplicate reads like the original everywhere. A rebound configuration reads as before at
the paths where the old schema had the very same single setting, and as the default at all
the others. Rebinding to the schema that is there already changes nothing, and a fresh
configuration stays fresh.
-/
namespace SettingsTree.Config

variable {c inner : Config} {s : Schema} {name leaf : String} {rest : List String}
  {d : Definition} {path : Path}

mutual

theorem toValue_duplicate : ∀ c : Config, c.duplicate.toValue = c.toValue
  | ⟨_, _, groups, _⟩ => by rw [duplicate, toValue, toValue, groupValues_duplicate groups]

theorem groupValues_duplicate : ∀ groups : List (String × Config),
    groupValues (duplicateGroups groups) = groupValues groups
  | [] => rfl
  | (_, c) :: rest => by
      rw [duplicateGroups, groupValues, groupValues, toValue_duplicate c,
        groupValues_duplicate rest]

end

theorem definition_duplicate (c : Config) (name : String) :
    c.duplicate.definition name = c.definition name := by
  rw [definition, definition, schema_duplicate]

theorem value_duplicate (c : Config) (name : String) : c.duplicate.value name = c.value name := by
  simp only [value, get, definition_duplicate, find?_groups_duplicate, values_duplicate]
  cases c.definition name with
  | error fault => rfl
  | ok d =>
      cases Table.find? name c.groups with
      | none => rfl
      | some inner => exact toValue_duplicate inner

theorem nested_duplicate (c : Config) (name : String) :
    c.duplicate.nested name = (c.nested name).map duplicate := by
  simp only [nested, definition_duplicate, find?_groups_duplicate]
  cases c.definition name with
  | error fault => rfl
  | ok d => cases Table.find? name c.groups <;> rfl

theorem descend_duplicate (walk : List String) (c : Config) :
    c.duplicate.descend walk = (c.descend walk).map duplicate := by
  induction walk generalizing c with
  | nil => rfl
  | cons name rest ih =>
      rw [descend, descend, nested_duplicate]
      cases c.nested name with
      | error fault => rfl
      | ok inner => exact ih inner

theorem getAt_duplicate (c : Config) (path : Path) : c.duplicate.getAt path = c.getAt path := by
  rw [getAt, getAt, descend_duplicate]
  cases c.descend path.parents with
  | error fault => rfl
  | ok inner => exact value_duplicate inner path.leaf

theorem duplicate_fresh (s : Schema) : (fresh s).duplicate = fresh s := by
  induction s using Schema.inductionOn with
  | step s ih =>
      have hf := ordered_fresh s
      have hd := hf.duplicate
      refine ext_of_sorted (schema_duplicate _) (by simp) hd.values hf.values hd.groups hf.groups
        (fun name => by rw [values_duplicate]) fun name => ?_
      rw [find?_groups_duplicate, find?_groups_fresh, Option.map_map]
      exact Option.map_congr fun inner hg => ih name inner hg

theorem keptValue?_fresh (s : Schema) (d : Definition) : (fresh s).keptValue? d = none := by
  unfold keptValue?
  split
  · simp
  · rfl

theorem keptValues_fresh (s : Schema) (ds : List Definition) : (fresh s).keptValues ds = [] := by
  induction ds with
  | nil => rfl
  | cons d rest ih => rw [keptValues, keptValue?_fresh, ih]

theorem rebind_fresh (s t : Schema) : (fresh s).rebind t = fresh t := by
  induction t using Schema.inductionOn generalizing s with
  | step t ih =>
      have hb := ordered_rebind (fresh s) t
      have hf := ordered_fresh t
      refine ext_of_sorted (by simp) (by simp) hb.values hf.values hb.groups hf.groups
        (fun name => ?_) fun name => ?_
      · rw [values_rebind, keptValues_fresh, values_fresh]
      · rw [find?_groups_rebind, find?_groups_fresh]
        refine Option.map_congr fun inner hg => ?_
        unfold rebindGroup
        split
        · next before hbefore =>
            rw [find?_groups_fresh] at hbefore
            obtain ⟨old, _, rfl⟩ := Option.map_eq_some_iff.1 hbefore
            exact ih name inner hg old
        · rfl

theorem Shaped.find?_groups_eq_none (h : c.Shaped) (hs : c.schema.Proper) :
    Table.find? name c.groups = none ↔ c.schema.group? name = none := by
  rw [hs.group?_eq]
  constructor
  · intro hf
    cases hl : c.schema.lookup name with
    | none => rfl
    | some d =>
        cases hg : d.group with
        | none => simpa using hg
        | some t =>
            obtain ⟨inner, hi, _⟩ := h.group_of_lookup hl hg
            rw [hf] at hi
            cases hi
  · intro hn
    cases hf : Table.find? name c.groups with
    | none => rfl
    | some inner =>
        obtain ⟨d, hl, hg⟩ := h.declared hf
        rw [hl, Option.bind_some, hg] at hn
        cases hn

theorem WellFormed.rebind_self (h : c.WellFormed) (hs : c.schema.Proper) :
    c.rebind c.schema = c := by
  obtain ⟨hc, ho⟩ := h
  induction c using inductionOn with
  | step c ih =>
      have hb := ordered_rebind c c.schema
      refine ext_of_sorted (schema_rebind c _) (frozen_rebind c _) hb.values ho.values hb.groups
        ho.groups (fun name => ?_) fun name => ?_
      · rw [find?_values_rebind c hs]
        cases hv : Table.find? name c.values with
        | some v =>
            obtain ⟨d, hl, hg⟩ := hc.assigned hv
            obtain rfl := (Schema.lookup_some hl).2
            rw [hl, Option.bind_some]
            exact keptValue?_eq_some.2 ⟨hg, d, hl, rfl, hv⟩
        | none =>
            refine Option.eq_none_iff_forall_ne_some.2 fun v hkept => ?_
            obtain ⟨d, hl, hk⟩ := Option.bind_eq_some_iff.1 hkept
            obtain rfl := (Schema.lookup_some hl).2
            obtain ⟨_, _, _, _, hf⟩ := keptValue?_eq_some.1 hk
            rw [hv] at hf
            cases hf
      · rw [find?_groups_rebind]
        cases hf : Table.find? name c.groups with
        | none => rw [(hc.find?_groups_eq_none hs).1 hf, Option.map_none]
        | some inner =>
            obtain ⟨d, hl, hg⟩ := hc.declared hf
            have hgroup : c.schema.group? name = some inner.schema := by
              rw [hs.group?_eq, hl]
              exact hg
            rw [hgroup, Option.map_some, rebindGroup, hf]
            exact congrArg some (ih name inner hf (hs.group hgroup) (hc.inside hf) (ho.inside hf))

theorem getAt_of_group (hl : c.schema.lookup name = some d)
    (hf : Table.find? name c.groups = some inner) :
    c.getAt ⟨name :: rest, leaf⟩ = inner.getAt ⟨rest, leaf⟩ := by
  have hn : c.nested name = .ok inner := nested_eq_ok.2 ⟨⟨d, hl⟩, hf⟩
  simp only [getAt, descend, hn]

theorem getAt_fresh (hs : s.Proper) (hd : s.at? path = some d) (hg : d.group = none) :
    (fresh s).getAt path = d.resolve none := by
  obtain ⟨parents, leaf⟩ := path
  induction parents generalizing s with
  | nil =>
      have hl : (fresh s).schema.lookup leaf = some d := by rwa [schema_fresh]
      have hvalue := (shaped_fresh hs).value_of_single hl hg
      rwa [values_fresh] at hvalue
  | cons name rest ih =>
      obtain ⟨outer, t, hl, ht, hd⟩ := Schema.at?_cons_eq_some.1 hd
      have hgroup : Table.find? name (fresh s).groups = some (fresh t) := by
        rw [find?_groups_fresh, hs.group?_eq, hl, Option.bind_some, ht]
        rfl
      rw [getAt_of_group (d := outer) (by rwa [schema_fresh]) hgroup]
      exact ih (hs.inside (Schema.lookup_some hl).1 ht) hd

/-- Where the old schema has the very same single setting, a rebound configuration reads
as before; everywhere else it reads as the default. No other single setting at the path may
have the stamp of the new one. -/
theorem Shaped.getAt_rebind (hc : c.Shaped) (hs : s.Proper) (hd : s.at? path = some d)
    (hg : d.group = none)
    (hsame : ∀ e, c.schema.at? path = some e → e.group = none → e.stamp = d.stamp → e = d) :
    (c.schema.at? path = some d → (c.rebind s).getAt path = c.getAt path) ∧
      (c.schema.at? path ≠ some d → (c.rebind s).getAt path = d.resolve none) := by
  obtain ⟨parents, leaf⟩ := path
  induction parents generalizing c s with
  | nil =>
      rw [Schema.at?_nil] at hd hsame ⊢
      obtain rfl := (Schema.lookup_some hd).2
      have hnew := (shaped_rebind hs c).value_of_single (by rwa [schema_rebind]) hg
      rw [find?_values_rebind c hs, hd, Option.bind_some] at hnew
      constructor
      · intro hold
        have hkept : c.keptValue? d = Table.find? d.name c.values := by
          simp [keptValue?, hg, hold]
        rw [hkept] at hnew
        exact hnew.trans (hc.value_of_single hold hg).symm
      · intro hother
        have hkept : c.keptValue? d = none := by
          refine Option.eq_none_iff_forall_ne_some.2 fun v hk => ?_
          obtain ⟨_, before, hb, hstamp, hv⟩ := keptValue?_eq_some.1 hk
          obtain ⟨old, hold, hsingle⟩ := hc.assigned hv
          obtain rfl := Option.some.inj (hb.symm.trans hold)
          exact hother (hsame before hb hsingle hstamp ▸ hb)
        rwa [hkept] at hnew
  | cons name rest ih =>
      obtain ⟨outer, t, hl, ht, hd⟩ := Schema.at?_cons_eq_some.1 hd
      have hproper : t.Proper := hs.inside (Schema.lookup_some hl).1 ht
      have hgroup : Table.find? name (c.rebind s).groups = some (c.rebindGroup name t) := by
        rw [find?_groups_rebind, hs.group?_eq, hl, Option.bind_some, ht]
        rfl
      rw [getAt_of_group (d := outer) (by rwa [schema_rebind]) hgroup, rebindGroup]
      cases hf : Table.find? name c.groups with
      | some before =>
          obtain ⟨e, he, heg⟩ := hc.declared hf
          rw [Schema.at?_of_group he heg] at hsame ⊢
          rw [getAt_of_group he hf]
          exact ih (hc.inside hf) hproper hd hsame
      | none =>
          refine ⟨fun hold => ?_, fun _ => getAt_fresh hproper hd hg⟩
          obtain ⟨e, u, he, heg, _⟩ := Schema.at?_cons_eq_some.1 hold
          obtain ⟨inner, hi, _⟩ := hc.group_of_lookup he heg
          rw [hf] at hi
          cases hi

end SettingsTree.Config
