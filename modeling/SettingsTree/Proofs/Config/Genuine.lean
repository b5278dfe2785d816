import SettingsTree.Proofs.Config.Stamped

/-!
# Configurations with genuine contents

Every value in a configuration was returned by the constructor of the setting that it stands
under, and there is a group exactly under each name that is declared as one. All calls keep
this, and so does putting another such configuration in the place of a group. It says less
than that a configuration has the shape of its schema: a group that came from elsewhere may
be bound to another schema than the one in its definition.

A value moves over to another schema only with its definition. That this is the definition
whose constructor returned the value is known from the heap in which both schemas stand.
-/
namespace SettingsTree.Config

/-- Stored values come from the constructors of their settings, and groups are where they are
declared. -/
inductive Genuine : Config → Prop where
  | intro (c : Config)
      (made : ∀ name v, Table.find? name c.values = some v →
        ∃ d raw, c.schema.lookup name = some d ∧ d.group = none ∧ d.resolve (some raw) = .ok v)
      (groups : ∀ name, (Table.find? name c.groups).isSome =
        ((c.schema.lookup name).bind Definition.group).isSome)
      (inside : ∀ name inner, Table.find? name c.groups = some inner → Genuine inner) : Genuine c

variable {heap : Heap} {c c' inner copied old other : Config} {s : Schema} {name : String}
  {d : Definition}

namespace Genuine

theorem made (h : c.Genuine) {v : Value} (hf : Table.find? name c.values = some v) :
    ∃ d raw, c.schema.lookup name = some d ∧ d.group = none ∧ d.resolve (some raw) = .ok v := by
  cases h with
  | intro _ hm => exact hm name v hf

theorem groups (h : c.Genuine) (name : String) : (Table.find? name c.groups).isSome =
    ((c.schema.lookup name).bind Definition.group).isSome := by
  cases h with
  | intro _ _ hg => exact hg name

theorem inside (h : c.Genuine) (hf : Table.find? name c.groups = some inner) :
    inner.Genuine := by
  cases h with
  | intro _ _ _ hi => exact hi name inner hf

theorem no_group_of_single (h : c.Genuine) (hl : c.schema.lookup name = some d)
    (hg : d.group = none) : Table.find? name c.groups = none := by
  have hnone := h.groups name
  rw [hl, Option.bind_some, hg, Option.isSome_none] at hnone
  exact Option.isNone_iff_eq_none.1 (by simpa using hnone)

theorem withValue (h : c.Genuine) {raw v : Value} (hl : c.schema.lookup d.name = some d)
    (hg : d.group = none) (hv : d.resolve (some raw) = .ok v) :
    (c.withValue d.name v).Genuine := by
  refine .intro _ (fun key w hf => ?_) h.groups fun _ _ => h.inside
  rw [Config.withValue, Table.find?_insert] at hf
  split_ifs at hf with he
  · obtain rfl := Option.some.inj hf
    exact ⟨d, raw, he ▸ hl, hg, hv⟩
  · exact h.made hf

theorem withGroup (h : c.Genuine) (hf : Table.find? name c.groups = some old)
    (hi : inner.Genuine) : (c.withGroup name inner).Genuine := by
  refine .intro _ (fun _ _ => h.made) (fun key => ?_) fun key t ht => ?_
  · rw [Config.withGroup, Table.find?_insert]
    split_ifs with he
    · have hold := h.groups name
      rw [hf] at hold
      rw [he]
      exact hold
    · exact h.groups key
  · rw [Config.withGroup, Table.find?_insert] at ht
    split_ifs at ht
    · exact Option.some.inj ht ▸ hi
    · exact h.inside ht

theorem mapGroups (h : c.Genuine) {f : Config → Config}
    (hf : ∀ name inner, Table.find? name c.groups = some inner → (f inner).Genuine)
    (schema : c'.schema = c.schema) (values : c'.values = c.values)
    (groups : c'.groups = Table.mapEntries f c.groups) : c'.Genuine := by
  refine .intro _ (fun name v hv => ?_) (fun name => ?_) fun name t ht => ?_
  · rw [values] at hv
    rw [schema]
    exact h.made hv
  · rw [groups, Table.find?_mapEntries, Option.isSome_map, schema]
    exact h.groups name
  · rw [groups, Table.find?_mapEntries] at ht
    obtain ⟨inner, hi, rfl⟩ := Option.map_eq_some_iff.1 ht
    exact hf name inner hi

theorem duplicate (h : c.Genuine) : c.duplicate.Genuine := by
  induction h with
  | intro c hm hg hi ih =>
      exact (Genuine.intro c hm hg hi).mapGroups ih (schema_duplicate c) (values_duplicate c)
        (groups_duplicate c)

theorem finalize (h : c.Genuine) : c.finalize.Genuine := by
  induction h with
  | intro c hm hg hi ih =>
      have hc := Genuine.intro c hm hg hi
      cases hz : c.frozen with
      | true =>
          rw [finalize_of_frozen hz]
          exact hc
      | false =>
          exact hc.mapGroups ih (schema_finalize c) (values_finalize c) (groups_finalize hz)

theorem changes {journal : List Entry} (h : c.Genuine) (m : Changes c c' journal) :
    c'.Genuine := by
  induction m with
  | refl => exact h
  | trans _ _ ih₁ ih₂ => exact ih₂ (ih₁ h)
  | assign _ hl hg hv => exact h.withValue hl hg hv
  | inside hf _ ih => exact h.withGroup hf (ih (h.inside hf))
  | finalize => exact h.finalize

theorem descend {walk : List String} (h : c.Genuine) (hd : c.descend walk = .ok inner) :
    inner.Genuine :=
  descend_keeps (fun h hf => h.inside hf) h hd

theorem replace (walk : List String) (h : c.Genuine) (ho : other.Genuine) :
    (c.within walk fun _ => .done other).state.Genuine :=
  replace_keeps (fun h hf => h.inside hf) (fun h hf hi => h.withGroup hf hi) walk h ho

/-- A staged value is committed as its constructor returned it. -/
theorem commits {stage : Stage} (h : stage.Commits c) (hs : stage.Fits)
    (ht : stage.target.Genuine) : c.Genuine := by
  induction h with
  | intro stage c hschema _ _ _ written kept entered others _ ih =>
      refine .intro c (fun name v hv => ?_) (fun name => ?_) fun name made hm => ?_
      · rw [hschema]
        cases hf : Table.find? name stage.writes with
        | some raw =>
            obtain ⟨d, v', hl, hmade, hc⟩ := written name raw hf
            obtain ⟨e, hl', hg⟩ := hs.single hf
            obtain rfl := Option.some.inj (hl.symm.trans hl')
            obtain rfl := Option.some.inj (hc.symm.trans hv)
            exact ⟨d, raw, hl, hg, hmade⟩
        | none =>
            rw [kept name hf] at hv
            exact ht.made hv
      · rw [hschema, ← ht.groups name]
        cases hf : Table.find? name stage.scopes with
        | some inner =>
            obtain ⟨made, hm⟩ := entered name inner hf
            rw [hm, (nested_eq_ok.1 (hs.there hf)).2]
            rfl
        | none => rw [others name hf, Option.isSome_map]
      · cases hf : Table.find? name stage.scopes with
        | some inner =>
            have hn := (nested_eq_ok.1 (hs.there hf)).2
            exact ih name inner made hf hm (hs.inside hf) (ht.inside hn)
        | none =>
            rw [others name hf] at hm
            obtain ⟨group, hg, rfl⟩ := Option.map_eq_some_iff.1 hm
            exact (ht.inside hg).duplicate

end Genuine

theorem genuine_fresh (hs : s.Proper) : (fresh s).Genuine := by
  induction s using Schema.inductionOn with
  | step s ih =>
      refine .intro _ (fun name v hv => ?_) (fun name => ?_) fun name t ht => ?_
      · rw [values_fresh] at hv
        cases hv
      · rw [find?_groups_fresh, Option.isSome_map, schema_fresh, hs.group?_eq]
      · rw [find?_groups_fresh] at ht
        obtain ⟨inner, hi, rfl⟩ := Option.map_eq_some_iff.1 ht
        exact ih name inner hi (hs.group hi)

/-- A value that is kept under another schema is one that its new definition returned, since
the heap has one definition for each stamp. -/
theorem Genuine.rebind (h : c.Genuine) (hc : c.Known heap) (hs : s.StandsIn heap) :
    (c.rebind s).Genuine := by
  induction c using inductionOn generalizing s with
  | step c ih =>
      refine .intro _ (fun name v hv => ?_) (fun name => ?_) fun name t ht => ?_
      · rw [find?_values_rebind c hs.proper] at hv
        obtain ⟨d, hl, hk⟩ := Option.bind_eq_some_iff.1 hv
        obtain rfl := (Schema.lookup_some hl).2
        obtain ⟨hg, before, hb, hstamp, hf⟩ := keptValue?_eq_some.1 hk
        obtain ⟨e, raw, he, heg, hmade⟩ := h.made hf
        obtain rfl := Option.some.inj (hb.symm.trans he)
        have hbefore := hc.here.each before (Schema.lookup_some hb).1
        have hnow := hs.each d (Schema.lookup_some hl).1
        obtain rfl := hbefore.eq_of_stamp hnow heg hg hstamp
        exact ⟨before, raw, by rwa [schema_rebind], hg, hmade⟩
      · rw [find?_groups_rebind, Option.isSome_map, schema_rebind, hs.group?_eq]
      · rw [find?_groups_rebind] at ht
        obtain ⟨inner, hi, rfl⟩ := Option.map_eq_some_iff.1 ht
        unfold rebindGroup
        split
        · next before hb =>
            exact ih name before hb (h.inside hb) (hc.inside hb) (hs.group hi)
        · exact genuine_fresh (hs.group hi).proper

theorem Genuine.copy {k : Copy} (h : c.Genuine) (hc : c.Stamped heap)
    (hk : k.apply c = .ok copied) (hs : ∀ s, k.making = .rebind s → s.StandsIn heap) :
    copied.Genuine := by
  have hkept : copied.Stamped heap ∧ copied.Genuine := by
    refine Copy.keeps (P := fun c => c.Stamped heap ∧ c.Genuine) hk
      (fun _ hd => ⟨hc.descend hd, h.descend hd⟩) (fun _ hi => ⟨hi.1.duplicate, hi.2.duplicate⟩)
      (fun inner s hi hm => ⟨.rebind inner (hs s hm), hi.2.rebind hi.1.known (hs s hm)⟩)
      fun inner requests hi hc => ?_
    obtain ⟨stage, rfl, hfits, hcommits⟩ := Stage.exists_commits hi.1.ordered hc
    exact ⟨hi.1.commits hfits hcommits, .commits hcommits hfits hi.2⟩
  exact hkept.2

end SettingsTree.Config
