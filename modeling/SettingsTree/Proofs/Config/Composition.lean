import SettingsTree.Proofs.Config.Leaves

/-!
# One batch after another

Two batches that go through one after the other do what a single one does: the first one with
the second one over it. Names do not get in each other's way, and under one name the later write
replaces the earlier one, or goes on in the same group. So batches without a common path may
come in either order.
-/
namespace SettingsTree.Config

variable {c c' c'' inner : Config} {name : String} {raw x y a b batch : Value} {t : Table Value}

section Accepted
variable {d : Definition} {s : Schema}

theorem WellFormed.declared_of_accepted (h : c.WellFormed) (hs : (c.set name raw).fault = none) :
    c.frozen = false ∧ ∃ d, c.schema.lookup name = some d := by
  cases ht : c.target name with
  | error fault =>
      rw [set_of_refused ht] at hs
      cases hs
  | ok target =>
      refine ⟨open_of_target ht, ?_⟩
      cases target with
      | setting d => exact ⟨d, (setting_of_target ht).1⟩
      | group inner =>
          obtain ⟨d, hl, _⟩ := h.shaped.declared (find?_of_target ht)
          exact ⟨d, hl⟩

theorem WellFormed.accepted_single (h : c.WellFormed) (hs : (c.set name raw).fault = none)
    (hl : c.schema.lookup name = some d) (hg : d.group = none) :
    ∃ v, d.resolve (some raw) = .ok v ∧ c.set name raw = .done (c.withValue name v) := by
  obtain ⟨hz, _⟩ := h.declared_of_accepted hs
  rw [set_of_setting (target_of_single hz hl hg), assign] at hs ⊢
  cases hv : d.resolve (some raw) with
  | error fault =>
      rw [hv] at hs
      cases hs
  | ok v => exact ⟨v, rfl, by rw [(Schema.lookup_some hl).2]⟩

theorem WellFormed.accepted_group (h : c.WellFormed) (hs : (c.set name raw).fault = none)
    (hl : c.schema.lookup name = some d) (hg : d.group = some s) :
    ∃ inner entries, Table.find? name c.groups = some inner ∧ inner.schema = s ∧
      raw = .map entries ∧ (inner.update raw).fault = none ∧
      c.set name raw = (inner.update raw).into (c.withGroup name) := by
  obtain ⟨hz, _⟩ := h.declared_of_accepted hs
  obtain ⟨inner, hf, rfl⟩ := h.shaped.group_of_lookup hl hg
  by_cases hm : ∃ entries, raw = .map entries
  · obtain ⟨entries, rfl⟩ := hm
    have hset := h.set_of_group hz hg hl (nested_eq_ok.2 ⟨⟨d, hl⟩, hf⟩) entries
    rw [hset] at hs
    exact ⟨inner, entries, hf, rfl, rfl, hs, hset⟩
  · have hrefused := set_of_group_of_not_map (target_of_group hz hl hg hf)
      fun entries he => hm ⟨entries, he⟩
    rw [hrefused] at hs
    cases hs

end Accepted

theorem exists_entriesOf {entries : List (Value × Value)} (h : strayKey? entries = none) :
    ∃ t, entries = Value.entriesOf t := by
  induction entries with
  | nil => exact ⟨[], rfl⟩
  | cons head rest ih =>
      obtain ⟨key, v⟩ := head
      cases key with
      | str name =>
          obtain ⟨t, rfl⟩ := ih h
          exact ⟨(name, v) :: t, rfl⟩
      | bool | int | float | char | unit | nothing | just | newtype | seq | map | bytes => cases h

theorem exists_entriesOf_of_update (h : (c.update batch).fault = none) :
    ∃ t, batch = .map (Value.entriesOf t) := by
  cases batch with
  | map entries =>
      rw [update] at h
      cases hk : strayKey? entries with
      | some key =>
          rw [hk] at h
          cases h
      | none =>
          obtain ⟨t, rfl⟩ := exists_entriesOf hk
          exact ⟨t, rfl⟩
  | bool | int | float | char | str | unit | nothing | just | newtype | seq | bytes => cases h

theorem fault_set_of_setAll (h : (c.setAll (Value.entriesOf t)).fault = none)
    (hf : Table.find? name t = some raw) : (c.set name raw).fault = none := by
  induction t generalizing c with
  | nil => cases hf
  | cons head rest ih =>
      obtain ⟨key, v⟩ := head
      rw [setAll_entriesOf_cons] at h
      cases hfirst : (c.set key v).fault with
      | some fault =>
          rw [Attempt.andThen_of_fault_eq_some hfirst, hfirst] at h
          cases h
      | none =>
          rw [Attempt.andThen_of_fault_eq_none hfirst] at h
          rw [Table.find?_cons] at hf
          split_ifs at hf with he
          · obtain rfl := he
            exact Option.some.inj hf ▸ hfirst
          · exact ((framed_set c key v).fault_set raw name).trans (ih h hf)

theorem WellFormed.takes (hc : c.WellFormed) (hb : batch.Ascending)
    (h : (c.update batch).fault = none) : c.schema.Takes batch := by
  induction c using inductionOn generalizing batch with
  | step c ih =>
      obtain ⟨t, rfl⟩ := exists_entriesOf_of_update h
      rw [update_entriesOf] at h
      refine .intro _ t hb.sorted (fun name raw hf => ?_) fun name raw d s hf hl hg => ?_
      · exact (hc.declared_of_accepted (fault_set_of_setAll h hf)).2
      · obtain ⟨inner, _, hi, rfl, _, hinner, _⟩ :=
          hc.accepted_group (fault_set_of_setAll h hf) hl hg
        exact ih name inner hi (hc.inside hi) (hb.value hf) hinner

/-- The entry of a batch under a name, if there is one, goes through and ends in what the other
configuration has there. -/
def LeadsAt (name : String) (c : Config) (entry : Option Value) (c' : Config) : Prop :=
  match entry with
  | some raw => (c.set name raw).fault = none ∧ AgreeAt name (c.set name raw).state c'
  | none => AgreeAt name c c'

theorem leadsAt_of_setAll (ht : Table.Sorted t)
    (h : (c.setAll (Value.entriesOf t)).fault = none) (name : String) :
    LeadsAt name c (Table.find? name t) (c.setAll (Value.entriesOf t)).state := by
  have hset := fun name raw (hf : Table.find? name t = some raw) => fault_set_of_setAll h hf
  have hat := (setAll_entriesOf ht hset).2 name
  cases hf : Table.find? name t with
  | some raw =>
      rw [hf] at hat
      exact ⟨hset name raw hf, hat.symm⟩
  | none =>
      rw [hf] at hat
      exact hat.symm

theorem setAll_eq_done (ho : c.Ordered) (ho' : c'.Ordered) (hc : c.Framed c')
    (ht : Table.Sorted t) (h : ∀ name, LeadsAt name c (Table.find? name t) c') :
    c.setAll (Value.entriesOf t) = .done c' := by
  have hset : ∀ name raw, Table.find? name t = some raw → (c.set name raw).fault = none := by
    intro name raw hf
    have hname := h name
    rw [hf] at hname
    exact hname.1
  obtain ⟨hfault, hat⟩ := setAll_entriesOf ht hset
  have hagree : ∀ name, AgreeAt name (c.setAll (Value.entriesOf t)).state c' := by
    intro name
    have hname := h name
    refine (hat name).trans ?_
    cases hf : Table.find? name t with
    | some raw =>
        rw [hf] at hname
        exact hname.2
    | none =>
        rw [hf] at hname
        exact hname
  have hframed := (framed_setAll c (Value.entriesOf t)).symm.trans hc
  have hordered := ho.changes (changes_setAll c (Value.entriesOf t))
  have hstate : (c.setAll (Value.entriesOf t)).state = c' :=
    ext_of_sorted hframed.schema hframed.frozen hordered.values ho'.values hordered.groups
      ho'.groups (fun name => (hagree name).value) fun name => (hagree name).group
  rw [← hstate]
  exact Attempt.eq_done hfault

/-- One entry after another leads where the later one leads over the earlier one. -/
theorem LeadsAt.overridden {first second : Option Value} (h : LeadsAt name c first c')
    (h' : LeadsAt name c' second c'') (hc : c.Framed c')
    (hboth : ∀ x y, first = some x → second = some y → (c.set name x).fault = none →
      ((c.set name x).state.set name y).fault = none →
      c.set name (c.schema.overriddenAt name first y) = (c.set name x).state.set name y) :
    LeadsAt name c ((second.map (c.schema.overriddenAt name first)).or first) c'' := by
  cases second with
  | none =>
      cases first with
      | none => exact AgreeAt.trans h h'
      | some x => exact ⟨h.1, h.2.trans h'⟩
  | some y =>
      cases first with
      | none =>
          obtain ⟨hfault, hstate⟩ := set_congr hc.schema hc.frozen h y
          rw [Option.map_some, Option.some_or, Schema.overriddenAt_none]
          exact ⟨hfault.trans h'.1, hstate.trans h'.2⟩
      | some x =>
          have hx := (framed_set c name x).symm.trans hc
          obtain ⟨hfault, hstate⟩ := set_congr hx.schema hx.frozen h.2 y
          have hy := hfault.trans h'.1
          rw [Option.map_some, Option.some_or, LeadsAt, hboth x y rfl rfl h.1 hy]
          exact ⟨hy, hstate.trans h'.2⟩

/-- Two writes under one name are one write, if this is so inside a group of that name. -/
theorem WellFormed.set_set (h : c.WellFormed) (hx : (c.set name x).fault = none)
    (hy : ((c.set name x).state.set name y).fault = none)
    (ih : ∀ inner, Table.find? name c.groups = some inner → (inner.update x).fault = none →
      ((inner.update x).state.update y).fault = none →
      inner.update (inner.schema.overridden x y) = (inner.update x).state.update y) :
    c.set name (c.schema.overriddenAt name (some x) y) = (c.set name x).state.set name y := by
  obtain ⟨hz, d, hl⟩ := h.declared_of_accepted hx
  have hafter := h.changes (changes_set c name x)
  have hl' : (c.set name x).state.schema.lookup name = some d := by
    rw [(changes_set c name x).schema, hl]
  cases hg : d.group with
  | none =>
      obtain ⟨v, _, hset⟩ := h.accepted_single hx hl hg
      obtain ⟨w, hw, hset'⟩ := hafter.accepted_single hy hl' hg
      rw [Schema.overriddenAt_of_single hl hg, set_of_setting (target_of_single hz hl hg), assign,
        hw, hset', hset, (Schema.lookup_some hl).2]
      exact congrArg Attempt.done (withValue_withValue c name v w).symm
  | some s =>
      obtain ⟨inner, entries, hf, rfl, rfl, hinner, hset⟩ := h.accepted_group hx hl hg
      obtain ⟨after, entries', hf', _, rfl, hinner', hset'⟩ := hafter.accepted_group hy hl' hg
      -- The later write goes on in the group that the earlier one has left.
      rw [hset] at hf'
      obtain rfl := Option.some.inj ((Table.find?_insert_self ..).symm.trans hf')
      have hmap : inner.schema.overridden (.map entries) (.map entries') =
          .map (inner.schema.overriddenEntries entries entries') := rfl
      have hwhole := h.set_of_group hz hg hl (nested_eq_ok.2 ⟨⟨d, hl⟩, hf⟩)
        (inner.schema.overriddenEntries entries entries')
      rw [← hmap, ih inner hf hinner hinner'] at hwhole
      rw [Schema.overriddenAt_of_group hl hg, hwhole, hset', hset, Attempt.into, Attempt.into,
        Attempt.state_into, withGroup_withGroup]

/-- Two batches that go through one after the other are one batch. -/
theorem WellFormed.update_overridden (h : c.WellFormed) (ha : a.Ascending) (hb : b.Ascending)
    (hfirst : (c.update a).fault = none)
    (hsecond : ((c.update a).state.update b).fault = none) :
    c.update (c.schema.overridden a b) = (c.update a).state.update b := by
  induction c using inductionOn generalizing a b with
  | step c ih =>
      obtain ⟨t, rfl⟩ := exists_entriesOf_of_update hfirst
      obtain ⟨u, rfl⟩ := exists_entriesOf_of_update hsecond
      rw [update_entriesOf] at hfirst hsecond ⊢
      rw [update_entriesOf] at hsecond ⊢
      rw [Schema.overridden_entriesOf, update_entriesOf, Attempt.eq_done hsecond]
      have hframed := framed_setAll c (Value.entriesOf t)
      have hordered := (h.ordered.changes (changes_setAll c (Value.entriesOf t))).changes
        (changes_setAll _ (Value.entriesOf u))
      refine setAll_eq_done h.ordered hordered (hframed.trans (framed_setAll _ _))
        (Schema.sorted_overriddenTable ha.sorted u) fun name => ?_
      rw [Schema.find?_overriddenTable]
      refine (leadsAt_of_setAll ha.sorted hfirst name).overridden
        (leadsAt_of_setAll hb.sorted hsecond name) hframed fun x y hx hy hfault hfault' => ?_
      rw [hx]
      exact h.set_set hfault hfault' fun inner hf =>
        ih name inner hf (h.inside hf) (ha.value hx) (hb.value hy)

/-- Whether a batch goes through does not depend on an earlier one. Two batches that go through
one after the other are the single batch that has the later one over the earlier one, and they
may come in either order if no path is assigned to by both. -/
theorem update_update (hc : c.WellFormed) (ha : a.Ascending) (hb : b.Ascending) :
    ((c.update a).state.update b).fault = (c.update b).fault ∧
      ((c.update a).fault = none → ((c.update a).state.update b).fault = none →
        c.update (c.schema.overridden a b) = .done ((c.update a).state.update b).state ∧
        (c.schema.Apart a b →
          (c.update b).state.update a = (c.update a).state.update b)) := by
  refine ⟨fault_update_update c a b, fun hfirst hafter => ?_⟩
  have hone := hc.update_overridden ha hb hfirst hafter
  refine ⟨hone.trans (Attempt.eq_done hafter), fun hapart => ?_⟩
  have hsecond := (fault_update_update c a b).symm.trans hafter
  have hturned := hc.update_overridden hb ha hsecond
    ((fault_update_update c b a).trans hfirst)
  rw [← hturned, ← hone,
    (hc.takes ha hfirst).overridden_comm (hc.takes hb hsecond) hapart]

/-- A group with two settings, and a setting that is given maps. -/
def tiered : Schema :=
  ((Scope.start ⟨0, 0⟩).run
    [.nested "g" {} [.setting "x" {}, .setting "y" { construct := some .wrap }],
      .setting "m" {}]).state.schema

theorem proper_tiered : tiered.Proper :=
  Scope.proper_run _ ⟨⟨trivial, trivial, trivial⟩, trivial, trivial⟩

def twofold (t : Table (Table Value)) : Value :=
  .map (Value.entriesOf (t.mapEntries fun inner => .map (Value.entriesOf inner)))

theorem ascending_twofold {t : Table (Table Value)} (ht : Table.Sorted t)
    (hinside : ∀ entry ∈ t, Table.Sorted entry.2)
    (hplain : ∀ entry ∈ t, ∀ e ∈ entry.2, ∀ entries, e.2 ≠ .map entries) :
    (twofold t).Ascending := by
  refine Value.ascending_entriesOf (ht.mapEntries _) fun entry he => ?_
  obtain ⟨⟨name, inner⟩, hm, rfl⟩ := List.mem_map.1 he
  exact Value.ascending_entriesOf (hinside _ hm) fun e he => .other _ (hplain _ hm e he)

/-- In the group the later batch replaces one value and leaves the other one; the map it
replaces as a whole. A batch with the other value only may also come after it. -/
theorem update_update_twofold :
    let c := fresh tiered
    let a := twofold [("g", [("x", .bool true), ("y", .bool false)]), ("m", [("k", .unit)])]
    let a' := twofold [("g", [("x", .bool true)])]
    let b := twofold [("g", [("y", .bool true)]), ("m", [("l", .unit)])]
    let after := ((c.update a).state.update b).state
    (c.WellFormed ∧ a.Ascending ∧ a'.Ascending ∧ b.Ascending) ∧
      (c.update a).fault = none ∧ ((c.update a).state.update b).fault = none ∧
      c.update (twofold [("g", [("x", .bool true), ("y", .bool true)]), ("m", [("l", .unit)])]) =
        .done after ∧
      (after.getAt ⟨["g"], "x"⟩ = .ok (.bool true) ∧
        after.getAt ⟨["g"], "y"⟩ = .ok (.seq [.bool true]) ∧
        after.getAt ⟨[], "m"⟩ = .ok (.map (Value.entriesOf [("l", .unit)]))) ∧
      c.schema.Apart a' b ∧ (c.update b).state.update a' = (c.update a').state.update b ∧
      ((c.update b).state.update a').state.getAt ⟨["g"], "x"⟩ = .ok (.bool true) := by
  have ha : (twofold [("g", [("x", .bool true), ("y", .bool false)]),
      ("m", [("k", .unit)])]).Ascending :=
    ascending_twofold (by decide) (by decide) (by simp [or_imp, forall_and])
  have ha' : (twofold [("g", [("x", .bool true)])]).Ascending :=
    ascending_twofold (by decide) (by decide) (by simp)
  have hb : (twofold [("g", [("y", .bool true)]), ("m", [("l", .unit)])]).Ascending :=
    ascending_twofold (by decide) (by decide) (by simp)
  have hc := wellFormed_fresh proper_tiered
  have hapart : (fresh tiered).schema.Apart (twofold [("g", [("x", .bool true)])])
      (twofold [("g", [("y", .bool true)]), ("m", [("l", .unit)])]) := by
    show List.Disjoint [(⟨["g"], "x"⟩ : Path)] [⟨["g"], "y"⟩, ⟨[], "m"⟩]
    simp
  obtain ⟨hwhole, _⟩ := (update_update hc ha hb).2 rfl rfl
  obtain ⟨_, hturned⟩ := (update_update hc ha' hb).2 rfl rfl
  exact ⟨⟨hc, ha, ha', hb⟩, rfl, rfl, hwhole, ⟨rfl, rfl, rfl⟩, hapart, hturned hapart, rfl⟩

end SettingsTree.Config
