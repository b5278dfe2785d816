import SettingsTree.Proofs.Config.Emission
import SettingsTree.Proofs.Config.Genuine

/-!
# What is left out when a configuration is written

A writer is given the single settings that are not null in the order of their declarations,
then the groups in theirs, each name once and each group in the same form. The whole
configuration can be written exactly if it can be read as a map, and what is written is that map
without the single settings that are null, in it and in every group. A null inside the value of
a single setting stays.
-/
namespace SettingsTree

namespace Table
variable {α β : Type} {name : String} {t : Table α}

/-- The entries for which the function has something, in its form. -/
def filterMapEntries (f : String → α → Option β) : Table α → Table β
  | [] => []
  | (name, entry) :: rest =>
      match f name entry with
      | some made => (name, made) :: filterMapEntries f rest
      | none => filterMapEntries f rest

theorem names_filterMapEntries (f : String → α → Option β) (t : Table α) :
    (names (filterMapEntries f t)).Sublist (names t) := by
  induction t with
  | nil => exact .slnil
  | cons head rest ih =>
      obtain ⟨name, entry⟩ := head
      rw [filterMapEntries]
      cases f name entry with
      | some made => exact ih.cons_cons name
      | none => exact ih.cons name

theorem Sorted.filterMapEntries (h : Sorted t) (f : String → α → Option β) :
    Sorted (filterMapEntries f t) :=
  List.Pairwise.sublist (names_filterMapEntries f t) h

theorem Sorted.find?_filterMapEntries (h : Sorted t) (f : String → α → Option β) :
    find? name (Table.filterMapEntries f t) = (find? name t).bind (f name) := by
  induction t with
  | nil => rfl
  | cons head rest ih =>
      obtain ⟨key, entry⟩ := head
      have hrest := ih h.rest
      rw [Table.filterMapEntries, find?_cons]
      by_cases he : key = name
      · subst he
        rw [h.find?_rest] at hrest
        rw [if_pos rfl, Option.bind_some]
        cases hf : f key entry with
        | some made => exact if_pos rfl
        | none => exact hrest
      · rw [if_neg he, ← hrest]
        cases f key entry with
        | some made => exact if_neg he
        | none => rfl

end Table

namespace Emission
variable {values : List (String × Value)} {groups : List (String × Emission)}
  {ds : List Definition}

/-- The single settings that are handed over, if a group is there exactly for each definition of
one. -/
theorem settingsOf_eq {read : String → Except Fault Value} {null : String → Bool}
    (hkinds : ∀ d ∈ ds, (Table.find? d.name groups).isSome = d.isGroup)
    (hread : ∀ d ∈ ds, d.isGroup = false → Config.valueOf values [] d = read d.name)
    (hnull : ∀ name, null name = true ↔ ∃ v, read name = .ok v ∧ v.isNull = true) :
    settingsOf values groups ds =
      (ds.filter fun d => !d.isGroup && !null d.name).map fun d => (d.name, read d.name) := by
  induction ds with
  | nil => rfl
  | cons d rest ih =>
      rw [List.forall_mem_cons] at hkinds hread
      have hrest := ih hkinds.2 hread.2
      rw [settingsOf, hkinds.1, List.filter_cons]
      cases hg : d.isGroup with
      | true => simp [hrest]
      | false =>
          rw [hread.1 hg]
          cases hv : read d.name with
          | error fault =>
              have hn : null d.name = false := by simpa [hv] using (hnull d.name).not
              simp [hn, hv, hrest]
          | ok v =>
              have hn : null d.name = v.isNull := by
                rw [Bool.eq_iff_iff, hnull, hv]
                simp
              cases hvn : v.isNull <;> simp [hn, hvn, hv, hrest]

theorem groupsOf_eq (groups : List (String × Emission)) (ds : List Definition) :
    groupsOf groups ds =
      ds.filterMap fun d => (Table.find? d.name groups).map fun inner => (d.name, inner) := by
  induction ds with
  | nil => rfl
  | cons d rest ih =>
      rw [groupsOf, List.filterMap_cons, ih]
      cases Table.find? d.name groups <;> rfl

theorem names_groupsOf (hkinds : ∀ d ∈ ds, (Table.find? d.name groups).isSome = d.isGroup) :
    (groupsOf groups ds).map Prod.fst = (ds.filter Definition.isGroup).map Definition.name := by
  induction ds with
  | nil => rfl
  | cons d rest ih =>
      rw [List.forall_mem_cons] at hkinds
      rw [groupsOf, List.filter_cons, ← hkinds.1]
      cases Table.find? d.name groups with
      | some inner => exact congrArg (d.name :: ·) (ih hkinds.2)
      | none => exact ih hkinds.2

theorem ok_of_resolved {settings : List (String × Except Fault Value)}
    {plain : List (String × Value)} (h : resolved settings = .ok plain) :
    ∀ entry ∈ settings, ∃ v, entry.2 = .ok v := by
  induction settings generalizing plain with
  | nil => simp
  | cons head rest ih =>
      obtain ⟨name, _ | v⟩ := head
      · cases h
      · rw [resolved] at h
        cases hr : resolved rest with
        | error fault =>
            rw [hr] at h
            cases h
        | ok others => exact List.forall_mem_cons.2 ⟨⟨v, rfl⟩, ih hr⟩

theorem ok_of_groupFields {groups : List (String × Emission)} {fields : List (String × Value)}
    (h : groupFields groups = .ok fields) : ∀ entry ∈ groups, ∃ v, entry.2.toValue = .ok v := by
  induction groups generalizing fields with
  | nil => simp
  | cons head rest ih =>
      obtain ⟨name, inner⟩ := head
      rw [groupFields] at h
      cases hi : inner.toValue with
      | error fault =>
          rw [hi] at h
          cases h
      | ok v =>
          rw [hi] at h
          cases hr : groupFields rest with
          | error fault =>
              simp only [hr] at h
              cases h
          | ok others => exact List.forall_mem_cons.2 ⟨⟨v, hi⟩, ih hr⟩

theorem ok_of_toValue {e : Emission} {v : Value} (h : e.toValue = .ok v) :
    (∀ entry ∈ e.settings, ∃ w, entry.2 = .ok w) ∧
      ∀ entry ∈ e.groups, ∃ w, entry.2.toValue = .ok w := by
  obtain ⟨settings, groups⟩ := e
  rw [toValue] at h
  cases hs : resolved settings with
  | error fault =>
      rw [hs] at h
      cases h
  | ok plain =>
      cases hg : groupFields groups with
      | error fault =>
          simp only [hs, hg] at h
          cases h
      | ok fields => exact ⟨ok_of_resolved hs, ok_of_groupFields hg⟩

end Emission

namespace Config
variable {heap : Heap} {c inner : Config} {name : String} {v whole : Value} {d : Definition}

mutual

/-- A map of a configuration without the single settings that are null, in it and in the maps of
the groups. -/
def stripped (c : Config) : Value → Value
  | .map entries => .map (c.strippedEntries entries)
  | v => v

def strippedEntries (c : Config) : List (Value × Value) → List (Value × Value)
  | [] => []
  | (.str name, v) :: rest =>
      match Table.find? name c.groups with
      | some inner => (.str name, inner.stripped v) :: c.strippedEntries rest
      | none =>
          if v.isNull then c.strippedEntries rest else (.str name, v) :: c.strippedEntries rest
  | entry :: rest => entry :: c.strippedEntries rest

end

/-- What is left of the value under a name, if anything. -/
def strippedEntry (c : Config) (name : String) (v : Value) : Option Value :=
  match Table.find? name c.groups with
  | some inner => some (inner.stripped v)
  | none => if v.isNull then none else some v

theorem strippedEntries_entriesOf (c : Config) (t : Table Value) :
    c.strippedEntries (Value.entriesOf t) =
      Value.entriesOf (t.filterMapEntries c.strippedEntry) := by
  induction t with
  | nil => rfl
  | cons head rest ih =>
      obtain ⟨name, v⟩ := head
      rw [Value.entriesOf_cons, strippedEntries, Table.filterMapEntries, strippedEntry, ih]
      cases Table.find? name c.groups with
      | some inner => rfl
      | none => cases v.isNull <;> rfl

def readsNull (c : Config) (name : String) : Bool :=
  match c.value name with
  | .ok v => v.isNull
  | .error _ => false

theorem readsNull_iff : c.readsNull name = true ↔ ∃ v, c.value name = .ok v ∧ v.isNull = true := by
  unfold readsNull
  cases c.value name <;> simp

/-- What a configuration hands to a writer: the single settings that are not null in the order
of their declarations, and then the groups in theirs, as they are handed over themselves. -/
structure HandsOver (c : Config) : Prop where
  settings : c.emission.settings =
    (c.schema.definitions.filter fun d => !d.isGroup && !c.readsNull d.name).map
      fun d => (d.name, c.value d.name)
  groups : c.emission.groups.map Prod.fst =
    (c.schema.definitions.filter Definition.isGroup).map Definition.name
  inside : ∀ name emitted, (name, emitted) ∈ c.emission.groups →
    ∃ inner, c.nested name = .ok inner ∧ emitted = inner.emission
  /-- No key is written twice. -/
  distinct : (c.emission.settings.map Prod.fst ++ c.emission.groups.map Prod.fst).Nodup

theorem Genuine.isSome_group (h : c.Genuine) (hs : c.schema.Proper)
    (hd : d ∈ c.schema.definitions) :
    (Table.find? d.name c.groups).isSome = d.isGroup := by
  rw [h.groups, hs.lookup_of_mem hd]
  rfl

theorem Genuine.valueOf_eq (h : c.Genuine) (hs : c.schema.Proper)
    (hd : d ∈ c.schema.definitions) (hg : d.isGroup = false) :
    valueOf c.values [] d = c.value d.name := by
  have hnone : Table.find? d.name c.groups = none := by
    simpa [hg] using h.isSome_group hs hd
  rw [value_of_lookup (hs.lookup_of_mem hd), valueOf, valueOf, find?_groupValues, hnone]
  rfl

theorem isSome_find?_groupEmissions (name : String) (groups : List (String × Config)) :
    (Table.find? name (groupEmissions groups)).isSome = (Table.find? name groups).isSome := by
  rw [find?_groupEmissions, Option.isSome_map]

theorem nodup_names_filter {ds : List Definition} (h : (ds.map Definition.name).Nodup)
    {p q : Definition → Bool} (hpq : ∀ d, p d = true → q d = false) :
    ((ds.filter p).map Definition.name ++ (ds.filter q).map Definition.name).Nodup := by
  have hsub : ∀ r : Definition → Bool, ((ds.filter r).map Definition.name).Nodup := fun r =>
    h.sublist (List.filter_sublist.map _)
  refine List.nodup_append.2 ⟨hsub p, hsub q, fun name hn other ho => ?_⟩
  rintro rfl
  obtain ⟨d, hd, rfl⟩ := List.mem_map.1 hn
  obtain ⟨e, he, hname⟩ := List.mem_map.1 ho
  obtain ⟨hdm, hdp⟩ := List.mem_filter.1 hd
  obtain ⟨hem, heq⟩ := List.mem_filter.1 he
  obtain rfl := List.inj_on_of_nodup_map h hem hdm hname
  rw [hpq e hdp] at heq
  cases heq

theorem Genuine.handsOver (h : c.Genuine) (hs : c.schema.Proper) : c.HandsOver := by
  have hkinds : ∀ d ∈ c.schema.definitions,
      (Table.find? d.name (groupEmissions c.groups)).isSome = d.isGroup := fun d hd => by
    rw [isSome_find?_groupEmissions, h.isSome_group hs hd]
  have hsettings : c.emission.settings =
      (c.schema.definitions.filter fun d => !d.isGroup && !c.readsNull d.name).map
        fun d => (d.name, c.value d.name) := by
    rw [emission_eq, Emission.settings]
    exact Emission.settingsOf_eq hkinds (fun d hd hg => h.valueOf_eq hs hd hg)
      fun _ => readsNull_iff
  have hgroups : c.emission.groups.map Prod.fst =
      (c.schema.definitions.filter Definition.isGroup).map Definition.name := by
    rw [emission_eq, Emission.groups]
    exact Emission.names_groupsOf hkinds
  refine ⟨hsettings, hgroups, fun name emitted hm => ?_, ?_⟩
  · rw [emission_eq, Emission.groups, Emission.groupsOf_eq] at hm
    obtain ⟨d, hd, he⟩ := List.mem_filterMap.1 hm
    obtain ⟨_, hf, hpair⟩ := Option.map_eq_some_iff.1 he
    obtain ⟨rfl, rfl⟩ := Prod.mk.inj hpair
    rw [find?_groupEmissions] at hf
    obtain ⟨inner, hi, rfl⟩ := Option.map_eq_some_iff.1 hf
    exact ⟨inner, nested_eq_ok.2 ⟨⟨d, hs.lookup_of_mem hd⟩, hi⟩, rfl⟩
  · rw [hsettings, hgroups, List.map_map]
    exact nodup_names_filter hs.distinct fun d hd => by simp_all

theorem Genuine.exists_lookup (h : c.Genuine) (hf : Table.find? name c.groups = some inner) :
    ∃ d, c.schema.lookup name = some d := by
  have hsome := h.groups name
  rw [hf] at hsome
  obtain ⟨t, ht⟩ := Option.isSome_iff_exists.1 hsome.symm
  obtain ⟨d, hl, _⟩ := Option.bind_eq_some_iff.1 ht
  exact ⟨d, hl⟩

/-- Under each name there is in the written map what is left of its value in the whole one. -/
theorem writes_iff_stripped (hl : c.schema.lookup name = some d) (hw : c.value name = .ok whole)
    (hgroup : ∀ inner, Table.find? name c.groups = some inner →
      inner.serialize = .ok (inner.stripped whole)) :
    c.Writes name v ↔ c.strippedEntry name whole = some v := by
  cases hf : Table.find? name c.groups with
  | some inner =>
      rw [writes_of_group ⟨d, hl⟩ hf, hgroup inner hf, strippedEntry, hf]
      exact ⟨fun h => congrArg some (Except.ok.inj h),
        fun h => congrArg Except.ok (Option.some.inj h)⟩
  | none =>
      rw [writes_of_no_group ⟨d, hl⟩ hf, hw, strippedEntry, hf]
      constructor
      · rintro ⟨h, hnull⟩
        obtain rfl := Except.ok.inj h
        simp [hnull]
      · intro h
        cases hnull : whole.isNull with
        | true => simp [hnull] at h
        | false =>
            obtain rfl : whole = v := by simpa [hnull] using h
            exact ⟨rfl, hnull⟩

/-- What is written is the whole map without the single settings that are null. -/
theorem Genuine.serialize_eq_stripped (h : c.Genuine) (hk : c.Known heap)
    (hw : c.toValue = .ok whole) : c.serialize = .ok (c.stripped whole) := by
  induction c using inductionOn generalizing whole with
  | step c ih =>
      have hproper := hk.here.proper
      obtain ⟨u, hu, rfl⟩ := exists_tabulated hproper hw
      have hvalues := (exists_toValue_iff hproper).1 ⟨_, hw⟩
      have hstripped : ∀ name inner v, Table.find? name c.groups = some inner →
          c.value name = .ok v → inner.serialize = .ok (inner.stripped v) := by
        intro name inner v hf hv
        obtain ⟨d, hl⟩ := h.exists_lookup hf
        refine ih name inner hf (h.inside hf) (hk.inside hf) ?_
        rw [← hv, value_of_group hl hf]
      obtain ⟨t, hwritten, ht, hwrites⟩ := exists_serialized hproper
        (fun name d hl _ => hvalues name d hl) fun name inner hf => by
          obtain ⟨d, hl⟩ := h.exists_lookup hf
          obtain ⟨v, hv⟩ := hvalues name d hl
          exact ⟨_, hstripped name inner v hf hv⟩
      have htable : t = u.filterMapEntries c.strippedEntry := by
        refine ht.ext (hu.sorted.filterMapEntries _) fun name => Option.ext fun v => ?_
        rw [hwrites, hu.sorted.find?_filterMapEntries, Option.bind_eq_some_iff]
        constructor
        · intro hv
          obtain ⟨d, hl⟩ := hv.1
          obtain ⟨w, hw⟩ := hvalues name d hl
          refine ⟨w, (hu.find?_eq_some name w).2 ⟨⟨d, hl⟩, hw⟩, ?_⟩
          exact (writes_iff_stripped hl hw fun inner hf => hstripped name inner w hf hw).1 hv
        · rintro ⟨w, hf, hv⟩
          obtain ⟨⟨d, hl⟩, hw⟩ := (hu.find?_eq_some name w).1 hf
          exact (writes_iff_stripped hl hw fun inner hf => hstripped name inner w hf hw).2 hv
      rw [hwritten, stripped, strippedEntries_entriesOf, htable]

/-- Whatever is left out resolves too, so nothing can be written that cannot be read as a map. -/
theorem Genuine.exists_toValue_of_serialize (h : c.Genuine) (hk : c.Known heap)
    (hw : c.serialize = .ok v) : ∃ whole, c.toValue = .ok whole := by
  induction c using inductionOn generalizing v with
  | step c ih =>
      have hproper := hk.here.proper
      have hhands := h.handsOver hproper
      obtain ⟨hsettings, hgroups⟩ := Emission.ok_of_toValue (serialize_eq_ok.1 hw)
      refine (exists_toValue_iff hproper).2 fun name d hl => ?_
      obtain ⟨hd, rfl⟩ := Schema.lookup_some hl
      cases hg : d.isGroup with
      | false =>
          cases hnull : c.readsNull d.name with
          | true =>
              obtain ⟨w, hv, _⟩ := readsNull_iff.1 hnull
              exact ⟨w, hv⟩
          | false =>
              refine hsettings (d.name, c.value d.name) ?_
              rw [hhands.settings]
              exact List.mem_map_of_mem (List.mem_filter.2 ⟨hd, by simp [hg, hnull]⟩)
      | true =>
          have hm : d.name ∈ c.emission.groups.map Prod.fst := by
            rw [hhands.groups]
            exact List.mem_map_of_mem (List.mem_filter.2 ⟨hd, hg⟩)
          obtain ⟨⟨name, emitted⟩, he, hname⟩ := List.mem_map.1 hm
          obtain rfl : name = d.name := hname
          obtain ⟨inner, hn, rfl⟩ := hhands.inside _ emitted he
          obtain ⟨w, hv⟩ := hgroups _ he
          have hf := (nested_eq_ok.1 hn).2
          rw [value_of_group hl hf]
          exact ih d.name inner hf (h.inside hf) (hk.inside hf) (serialize_eq_ok.2 hv)

end Config
end SettingsTree
