import SettingsTree.Proofs.Config.Freezing

/-!
# Well-formed configurations

A configuration is well formed if what it stores fits its schema and is listed in
order, at every depth. Configurations are made well formed from schemas in which no
name is listed twice, and every call keeps them well formed; so a history can leave
no other ones, as long as it rebinds to such schemas.
-/
namespace SettingsTree.Config

/-- What is stored fits the schema and is listed in order. -/
structure WellFormed (c : Config) : Prop where
  shaped : c.Shaped
  ordered : c.Ordered

section Shapes
variable {c c' inner old : Config} {name : String}

theorem Shaped.assigned (h : c.Shaped) {v : Value} (hf : Table.find? name c.values = some v) :
    ∃ d, c.schema.lookup name = some d ∧ d.group = none := by
  cases h with
  | intro _ ha => exact ha name v hf

theorem Shaped.declared (h : c.Shaped) (hf : Table.find? name c.groups = some inner) :
    ∃ d, c.schema.lookup name = some d ∧ d.group = some inner.schema := by
  cases h with
  | intro _ _ hd => exact hd name inner hf

theorem Shaped.present (h : c.Shaped) {d : Definition} {s : Schema}
    (hl : c.schema.lookup name = some d) (hg : d.group = some s) :
    ∃ inner, Table.find? name c.groups = some inner := by
  cases h with
  | intro _ _ _ hp => exact hp name d s hl hg

theorem Shaped.inside (h : c.Shaped) (hf : Table.find? name c.groups = some inner) :
    inner.Shaped := by
  cases h with
  | intro _ _ _ _ hi => exact hi name inner hf

theorem Shaped.group_of_lookup (h : c.Shaped) {d : Definition} {t : Schema}
    (hl : c.schema.lookup name = some d)
    (hg : d.group = some t) :
    ∃ inner, Table.find? name c.groups = some inner ∧ inner.schema = t := by
  obtain ⟨inner, hf⟩ := h.present hl hg
  obtain ⟨e, he, heg⟩ := h.declared hf
  obtain rfl := Option.some.inj (hl.symm.trans he)
  exact ⟨inner, hf, Option.some.inj (heg.symm.trans hg)⟩

theorem Shaped.no_group_of_single (h : c.Shaped) {d : Definition}
    (hl : c.schema.lookup name = some d) (hg : d.group = none) :
    Table.find? name c.groups = none := by
  cases hf : Table.find? name c.groups with
  | none => rfl
  | some inner =>
      obtain ⟨d', hl', hg'⟩ := h.declared hf
      obtain rfl := Option.some.inj (hl.symm.trans hl')
      rw [hg] at hg'
      cases hg'

theorem Shaped.value_of_single (h : c.Shaped) {d : Definition}
    (hl : c.schema.lookup name = some d) (hg : d.group = none) :
    c.value name =
      match Table.find? name c.values with
      | some v => .ok v
      | none => d.resolve none := by
  simp only [value, get, definition_eq_ok.2 hl, h.no_group_of_single hl hg]
  cases Table.find? name c.values with
  | some v => rfl
  | none => cases d.resolve none <;> rfl

theorem Shaped.withValue (h : c.Shaped) {d : Definition} (hl : c.schema.lookup d.name = some d)
    (hg : d.group = none) (v : Value) : (c.withValue d.name v).Shaped := by
  refine .intro _ (fun other w hf => ?_) (fun _ _ => h.declared) (fun _ _ _ => h.present)
    fun _ _ => h.inside
  rw [Config.withValue, Table.find?_insert] at hf
  split_ifs at hf with he
  · exact ⟨d, he ▸ hl, hg⟩
  · exact h.assigned hf

theorem Shaped.withGroup (h : c.Shaped) (hf : Table.find? name c.groups = some old)
    (hs : inner.schema = old.schema) (hi : inner.Shaped) : (c.withGroup name inner).Shaped := by
  refine .intro _ (fun _ _ => h.assigned) (fun other t ht => ?_) (fun other d s hl hg => ?_)
    fun other t ht => ?_
  · rw [Config.withGroup, Table.find?_insert] at ht
    split_ifs at ht with he
    · obtain rfl := Option.some.inj ht
      rw [he, hs]
      exact h.declared hf
    · exact h.declared ht
  · rw [Config.withGroup, Table.find?_insert]
    split_ifs
    · exact ⟨inner, rfl⟩
    · exact h.present hl hg
  · rw [Config.withGroup, Table.find?_insert] at ht
    split_ifs at ht
    · exact Option.some.inj ht ▸ hi
    · exact h.inside ht

theorem Shaped.mapGroups (h : c.Shaped) {f : Config → Config} (hs : ∀ t, (f t).schema = t.schema)
    (hf : ∀ name inner, Table.find? name c.groups = some inner → (f inner).Shaped)
    (schema : c'.schema = c.schema) (values : c'.values = c.values)
    (groups : c'.groups = Table.mapEntries f c.groups) : c'.Shaped := by
  refine .intro _ (fun name v hv => ?_) (fun name t ht => ?_) (fun name d s hl hg => ?_)
    fun name t ht => ?_
  · rw [values] at hv
    rw [schema]
    exact h.assigned hv
  · rw [groups, Table.find?_mapEntries] at ht
    obtain ⟨inner, hi, rfl⟩ := Option.map_eq_some_iff.1 ht
    rw [schema, hs]
    exact h.declared hi
  · rw [schema] at hl
    obtain ⟨inner, hi⟩ := h.present hl hg
    exact ⟨f inner, by rw [groups, Table.find?_mapEntries, hi]; rfl⟩
  · rw [groups, Table.find?_mapEntries] at ht
    obtain ⟨inner, hi, rfl⟩ := Option.map_eq_some_iff.1 ht
    exact hf name inner hi

theorem Shaped.duplicate (h : c.Shaped) : c.duplicate.Shaped := by
  induction h with
  | intro c ha hd hp hi ih =>
      exact (Shaped.intro c ha hd hp hi).mapGroups schema_duplicate ih (schema_duplicate c)
        (values_duplicate c) (groups_duplicate c)

theorem Shaped.finalize (h : c.Shaped) : c.finalize.Shaped := by
  induction h with
  | intro c ha hd hp hi ih =>
      have hc := Shaped.intro c ha hd hp hi
      cases hz : c.frozen with
      | true =>
          rw [finalize_of_frozen hz]
          exact hc
      | false =>
          exact hc.mapGroups schema_finalize ih (schema_finalize c) (values_finalize c)
            (groups_finalize hz)

theorem Shaped.changes {journal : List Entry} (h : c.Shaped) (m : Changes c c' journal) :
    c'.Shaped := by
  induction m with
  | refl => exact h
  | trans _ _ ih₁ ih₂ => exact ih₂ (ih₁ h)
  | assign _ hl hg => exact h.withValue hl hg _
  | inside hf hm ih => exact h.withGroup hf hm.schema (ih (h.inside hf))
  | finalize => exact h.finalize

theorem WellFormed.inside (h : c.WellFormed) (hf : Table.find? name c.groups = some inner) :
    inner.WellFormed :=
  ⟨h.shaped.inside hf, h.ordered.inside hf⟩

theorem WellFormed.changes {journal : List Entry} (h : c.WellFormed)
    (m : Changes c c' journal) : c'.WellFormed :=
  ⟨h.shaped.changes m, h.ordered.changes m⟩

theorem Shaped.descend {walk : List String} (h : c.Shaped) (hd : c.descend walk = .ok inner) :
    inner.Shaped :=
  descend_keeps (fun h hf => h.inside hf) h hd

/-- A configuration is shaped if its groups are made one for each group of the schema. -/
theorem shaped_of_groups (hs : c.schema.Proper) (make : String → Schema → Config)
    (assigned : ∀ name v, Table.find? name c.values = some v →
      ∃ d, c.schema.lookup name = some d ∧ d.group = none)
    (groups : ∀ name, Table.find? name c.groups = (c.schema.group? name).map (make name))
    (made : ∀ name s, c.schema.group? name = some s →
      (make name s).schema = s ∧ (make name s).Shaped) : c.Shaped := by
  refine .intro c assigned (fun name t ht => ?_) (fun name d s hl hg => ?_) fun name t ht => ?_
  · rw [groups] at ht
    obtain ⟨s, hg, rfl⟩ := Option.map_eq_some_iff.1 ht
    have hd := hg
    rw [hs.group?_eq] at hd
    obtain ⟨d, hl, hd⟩ := Option.bind_eq_some_iff.1 hd
    exact ⟨d, hl, by rw [hd, (made name s hg).1]⟩
  · refine ⟨make name s, ?_⟩
    rw [groups, hs.group?_eq, hl]
    simp [hg]
  · rw [groups] at ht
    obtain ⟨s, hg, rfl⟩ := Option.map_eq_some_iff.1 ht
    exact (made name s hg).2

theorem shaped_fresh {s : Schema} (hs : s.Proper) : (fresh s).Shaped := by
  induction s using Schema.inductionOn with
  | step s ih =>
      have hp : (fresh s).schema.Proper := by rwa [schema_fresh]
      refine shaped_of_groups hp (fun _ => fresh) (fun name v hv => ?_) (fun name => ?_)
        fun name t hg => ⟨schema_fresh t, ?_⟩
      · rw [values_fresh] at hv
        cases hv
      · rw [find?_groups_fresh, schema_fresh]
      · rw [schema_fresh] at hg
        exact ih name t hg (hs.group hg)

/-- A rebound configuration has the shape of the new schema, whatever the old one had. -/
theorem shaped_rebind {s : Schema} (hs : s.Proper) (c : Config) : (c.rebind s).Shaped := by
  induction c using inductionOn generalizing s with
  | step c ih =>
      have hp : (c.rebind s).schema.Proper := by rwa [schema_rebind]
      refine shaped_of_groups hp c.rebindGroup (fun name v hv => ?_) (fun name => ?_)
        fun name t hg => ?_
      · rw [find?_values_rebind c hs] at hv
        obtain ⟨d, hl, hk⟩ := Option.bind_eq_some_iff.1 hv
        refine ⟨d, by rwa [schema_rebind], ?_⟩
        unfold keptValue? at hk
        split at hk
        · assumption
        · cases hk
      · rw [find?_groups_rebind, schema_rebind]
      · rw [schema_rebind] at hg
        unfold rebindGroup
        split
        · next before hb => exact ⟨schema_rebind before t, ih name before hb (hs.group hg)⟩
        · exact ⟨schema_fresh t, shaped_fresh (hs.group hg)⟩

end Shapes

end Config

theorem Stage.Commits.shaped {s : Stage} {c : Config} (h : Commits s c) (hs : s.Fits)
    (ht : s.target.Shaped) : c.Shaped := by
  induction h with
  | intro s c schema _ _ _ written kept entered others inside ih =>
      have made : ∀ name t, Table.find? name c.groups = some t →
          ∃ group, Table.find? name s.target.groups = some group ∧ t.schema = group.schema ∧
            t.Shaped := by
        intro name t hm
        cases hf : Table.find? name s.scopes with
        | some inner =>
            have hn := (Config.nested_eq_ok.1 (hs.there hf)).2
            exact ⟨inner.target, hn, (inside name inner t hf hm).schema,
              ih name inner t hf hm (hs.inside hf) (ht.inside hn)⟩
        | none =>
            rw [others name hf] at hm
            obtain ⟨group, hg, rfl⟩ := Option.map_eq_some_iff.1 hm
            exact ⟨group, hg, Config.schema_duplicate group, (ht.inside hg).duplicate⟩
      refine .intro c (fun name v hv => ?_) (fun name t hm => ?_) (fun name d t hl hg => ?_)
        fun name t hm => ?_
      · rw [schema]
        cases hf : Table.find? name s.writes with
        | some raw => exact hs.single hf
        | none =>
            rw [kept name hf] at hv
            exact ht.assigned hv
      · obtain ⟨group, hg, hsame, _⟩ := made name t hm
        rw [schema, hsame]
        exact ht.declared hg
      · rw [schema] at hl
        cases hf : Table.find? name s.scopes with
        | some inner => exact entered name inner hf
        | none =>
            obtain ⟨group, hgroup⟩ := ht.present hl hg
            exact ⟨group.duplicate, by rw [others name hf, hgroup]; rfl⟩
      · obtain ⟨_, _, _, hshaped⟩ := made name t hm
        exact hshaped

namespace Config

/-- A step rebinds only to a schema in which no name is listed twice. -/
def Step.Proper : Step → Prop
  | .copy ⟨_, .rebind s⟩ => s.Proper
  | _ => True

theorem wellFormed_copy {c made : Config} (k : Copy) (h : c.WellFormed)
    (hp : Step.Proper (.copy k)) (hk : k.apply c = .ok made) : made.WellFormed := by
  refine Copy.keeps hk (fun _ hd => ⟨h.shaped.descend hd, h.ordered.descend hd⟩)
    (fun _ hi => ⟨hi.shaped.duplicate, hi.ordered.duplicate⟩) (fun inner s _ hm => ?_)
    fun inner requests hi hc => ?_
  · obtain ⟨walk, making⟩ := k
    obtain rfl : making = .rebind s := hm
    exact ⟨shaped_rebind hp inner, ordered_rebind inner s⟩
  · obtain ⟨stage, rfl, hfits, hcommits⟩ := Stage.exists_commits hi.ordered hc
    exact ⟨hcommits.shaped hfits hi.shaped, hcommits.ordered hi.ordered hfits⟩

theorem Step.wellFormed_next {c : Config} (h : c.WellFormed) (step : Step) (hp : step.Proper) :
    (step.next c).WellFormed := by
  cases step with
  | edit e => exact ⟨h.shaped.changes (changes_edit c e), h.ordered.changes (changes_edit c e)⟩
  | copy k =>
      rw [Step.next]
      split
      · next hk => exact wellFormed_copy k h hp hk
      · exact h

theorem wellFormed_fresh {s : Schema} (hs : s.Proper) : (fresh s).WellFormed :=
  ⟨shaped_fresh hs, ordered_fresh s⟩

/-- Histories leave well-formed configurations only. -/
theorem wellFormed_after {c : Config} (h : c.WellFormed) {history : List Step}
    (hp : ∀ step ∈ history, step.Proper) : (c.after history).WellFormed := by
  induction history generalizing c with
  | nil => exact h
  | cons step rest ih =>
      have hn := Step.wellFormed_next h step (hp step List.mem_cons_self)
      exact ih hn fun later hl => hp later (List.mem_cons_of_mem _ hl)

theorem proper_extended : extended.Proper := by
  have hx : (Schema.mk [⟨.declared 0 1, "x", some (Registered.number 1), .identity, false, none⟩]
      false).Proper := .intro _ (by decide) (fun _ _ => trivial) (by simp)
  refine .intro _ (by decide) (fun _ _ => trivial) fun d hd inner hi => ?_
  simp only [extended, plain, List.cons_append, List.nil_append, List.mem_cons,
    List.not_mem_nil, or_false] at hd
  rcases hd with rfl | rfl
  · cases hi
  · exact Option.some.inj hi ▸ hx

end SettingsTree.Config
