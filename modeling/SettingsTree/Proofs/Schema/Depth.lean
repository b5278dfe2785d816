import SettingsTree.Schema.Merge
import Mathlib.Data.List.Nodup

/-!
# Schemas at every depth

`Schema.All P` says that no name is listed twice and that every definition has
the property `P`, in a schema and in the schema of every group inside. What a
declaration, an inclusion or a merge puts into a schema keeps it, provided that
the new definitions have it too. The frozen mark plays no part in it.
-/
namespace SettingsTree

namespace Definition

theorem mem_of_find? {name : String} {d : Definition} {ds : List Definition}
    (h : find? name ds = some d) : d ∈ ds ∧ d.name = name := by
  induction ds with
  | nil => simp [find?] at h
  | cons head rest ih =>
      rw [find?] at h
      split_ifs at h with he
      · obtain rfl := Option.some.inj h
        exact ⟨List.mem_cons_self, he⟩
      · exact ⟨List.mem_cons_of_mem _ (ih h).1, (ih h).2⟩

theorem find?_of_mem {d : Definition} {ds : List Definition}
    (hn : (ds.map name).Nodup) (hm : d ∈ ds) : find? d.name ds = some d := by
  induction ds with
  | nil => simp at hm
  | cons head rest ih =>
      rw [List.map_cons, List.nodup_cons] at hn
      rw [find?]
      rcases List.mem_cons.1 hm with rfl | hr
      · rw [if_pos rfl]
      · have hne : head.name ≠ d.name := fun he => hn.1 (he ▸ List.mem_map_of_mem hr)
        rw [if_neg hne]
        exact ih hn.2 hr

theorem find?_insert (name : String) (d : Definition) (ds : List Definition) :
    find? name (d.insert ds) = if d.name = name then some d else find? name ds := by
  induction ds with
  | nil => rfl
  | cons head rest ih =>
      rw [insert]
      by_cases hs : head.name = d.name
      · rw [if_pos hs, find?, find?, hs]
        split_ifs <;> rfl
      · rw [if_neg hs, find?, ih, find?]
        by_cases hh : head.name = name
        · have hd : d.name ≠ name := fun he => hs (hh.trans he.symm)
          rw [if_pos hh, if_pos hh, if_neg hd]
        · rw [if_neg hh, if_neg hh]

theorem mem_insert {d e : Definition} {ds : List Definition} (h : e ∈ d.insert ds) :
    e = d ∨ e ∈ ds := by
  induction ds with
  | nil => exact .inl (by simpa [insert] using h)
  | cons head rest ih =>
      rw [insert] at h
      split_ifs at h
      · rcases List.mem_cons.1 h with rfl | hr
        · exact .inl rfl
        · exact .inr (List.mem_cons_of_mem _ hr)
      · rcases List.mem_cons.1 h with rfl | hr
        · exact .inr List.mem_cons_self
        · exact (ih hr).imp_right (List.mem_cons_of_mem _)

/-- A replaced definition leaves the names as they were, a new one adds its name
at the end. -/
theorem names_insert (d : Definition) (ds : List Definition) :
    (d.insert ds).map name =
      if d.name ∈ ds.map name then ds.map name else ds.map name ++ [d.name] := by
  induction ds with
  | nil => simp [insert]
  | cons head rest ih =>
      rw [insert]
      by_cases hs : head.name = d.name
      · simp [hs]
      · simp only [if_neg hs, List.map_cons, ih, List.mem_cons, Ne.symm hs, false_or]
        split_ifs <;> rfl

theorem nodup_insert (d : Definition) {ds : List Definition} (h : (ds.map name).Nodup) :
    ((d.insert ds).map name).Nodup := by
  rw [names_insert]
  split_ifs with hm
  · exact h
  · exact List.nodup_append.2 ⟨h, List.nodup_singleton _, fun a ha b hb he =>
      hm (List.mem_singleton.1 hb ▸ he ▸ ha)⟩

end Definition

namespace Schema

/-- No name is listed twice and every definition has the property, at every depth. -/
inductive All (P : Definition → Prop) : Schema → Prop where
  | intro (s : Schema) (distinct : s.names.Nodup) (each : ∀ d ∈ s.definitions, P d)
      (inside : ∀ d ∈ s.definitions, ∀ inner, d.group = some inner → All P inner) : All P s

/-- The names of a schema are distinct, at every depth. -/
def Proper (s : Schema) : Prop := s.All fun _ => True

def group? (s : Schema) (name : String) : Option Schema :=
  s.definitions.findSome? fun d => if d.name = name then d.group else none

variable {P Q : Definition → Prop} {s t : Schema}

theorem All.distinct (h : s.All P) : s.names.Nodup := by cases h; assumption

theorem All.each (h : s.All P) : ∀ d ∈ s.definitions, P d := by cases h; assumption

theorem All.inside (h : s.All P) {d : Definition} (hd : d ∈ s.definitions) {inner : Schema}
    (hi : d.group = some inner) : inner.All P := by
  cases h with
  | intro _ _ _ hs => exact hs d hd inner hi

theorem All.mono (h : s.All P) (hPQ : ∀ d, P d → Q d) : s.All Q := by
  induction h with
  | intro s hn hp _ ih => exact .intro s hn (fun d hd => hPQ d (hp d hd)) ih

theorem All.proper (h : s.All P) : s.Proper := h.mono fun _ _ => trivial

theorem All.of_definitions (h : s.All P) (he : t.definitions = s.definitions) : t.All P := by
  refine .intro t ?_ ?_ ?_
  · rw [names, he]
    exact h.distinct
  · rw [he]
    exact h.each
  · rw [he]
    exact fun d hd inner hi => h.inside hd hi

theorem all_empty : empty.All P := .intro _ List.nodup_nil (by simp [empty]) (by simp [empty])

theorem All.insert {d : Definition} (h : s.All P) (hd : P d)
    (hi : ∀ inner, d.group = some inner → inner.All P) (frozen : Bool) :
    (Schema.mk (d.insert s.definitions) frozen).All P := by
  refine .intro _ (Definition.nodup_insert d h.distinct) ?_ ?_
  · intro e he
    rcases Definition.mem_insert he with rfl | hm
    · exact hd
    · exact h.each e hm
  · intro e he inner hg
    rcases Definition.mem_insert he with rfl | hm
    · exact hi inner hg
    · exact h.inside hm hg

theorem All.insertAll (h : s.All P) (ht : t.All P) (frozen : Bool) :
    (Schema.mk (Definition.insertAll t.definitions s.definitions) frozen).All P := by
  -- Only the membership of the inserted definitions matters, so the list may shrink.
  have key : ∀ (ds : List Definition) (s : Schema), s.All P → (∀ d ∈ ds, d ∈ t.definitions) →
      (Schema.mk (Definition.insertAll ds s.definitions) frozen).All P := by
    intro ds
    induction ds with
    | nil => exact fun s hs _ => hs.of_definitions rfl
    | cons d rest ih =>
        intro s hs hm
        have hd := hm d List.mem_cons_self
        have hone := hs.insert (ht.each d hd) (fun inner hi => ht.inside hd hi) frozen
        exact ih _ hone fun e he => hm e (List.mem_cons_of_mem _ he)
  exact key t.definitions s h fun _ hd => hd

theorem All.incorporate (h : s.All P) (ht : t.All P) : (s.incorporate t).state.All P := by
  unfold Schema.incorporate
  split
  · exact h
  · exact h.insertAll ht _

theorem All.duplicate (h : s.All P) : s.duplicate.All P := h.of_definitions rfl

theorem All.freeze (h : s.All P) : s.freeze.All P := h.of_definitions rfl

mutual

/-- A merge makes new definitions only for the groups that both sides have. -/
theorem All.merge (hP : ∀ (d : Definition) (stamp : Stamp) (inner : Schema),
    P d → P { d with stamp, group := some inner }) :
    ∀ {theirs ours : Schema}, ours.All P → theirs.All P → (ours.merge theirs).All P
  | ⟨ds, _⟩, _, ho, ht => by
      rw [Schema.merge]
      exact all_mergeInto hP ds (ho.of_definitions rfl) ht.each fun d hd inner => ht.inside hd

theorem all_mergeInto (hP : ∀ (d : Definition) (stamp : Stamp) (inner : Schema),
    P d → P { d with stamp, group := some inner }) :
    ∀ (ds : List Definition) {collected : List Definition},
      (Schema.mk collected false).All P → (∀ d ∈ ds, P d) →
      (∀ d ∈ ds, ∀ inner, d.group = some inner → inner.All P) →
      (Schema.mk (mergeInto collected ds) false).All P
  | [], _, hc, _, _ => by
      rw [mergeInto]
      exact hc
  | ⟨stamp, name, fallback, construct, reader, none⟩ :: rest, _, hc, hp, hi => by
      rw [mergeInto]
      have hd := hc.insert (d := ⟨stamp, name, fallback, construct, reader, none⟩)
        (hp _ List.mem_cons_self) (fun _ h => nomatch h) false
      exact all_mergeInto hP rest hd (fun d hd => hp d (List.mem_cons_of_mem _ hd))
        fun d hd => hi d (List.mem_cons_of_mem _ hd)
  | ⟨stamp, name, fallback, construct, reader, some inner⟩ :: rest, collected, hc, hp, hi => by
      rw [mergeInto]
      have hpd := hp _ List.mem_cons_self
      have hid : inner.All P := hi _ List.mem_cons_self inner rfl
      refine all_mergeInto hP rest (hc.insert ?_ ?_ false)
        (fun d hd => hp d (List.mem_cons_of_mem _ hd))
        fun d hd => hi d (List.mem_cons_of_mem _ hd)
      · split
        · exact hP _ _ _ hpd
        · exact hpd
      · intro merged hm
        split at hm
        · next hf =>
            obtain rfl := Option.some.inj hm
            exact All.merge hP (hc.inside (Definition.mem_of_find? hf).1 rfl) hid
        · obtain rfl := Option.some.inj hm
          exact hid

end

theorem lookup_some {name : String} {d : Definition} (h : s.lookup name = some d) :
    d ∈ s.definitions ∧ d.name = name :=
  Definition.mem_of_find? h

theorem All.lookup_of_mem {d : Definition} (h : s.All P) (hd : d ∈ s.definitions) :
    s.lookup d.name = some d :=
  Definition.find?_of_mem h.distinct hd

theorem group?_some {name : String} {inner : Schema} (h : s.group? name = some inner) :
    ∃ d ∈ s.definitions, d.name = name ∧ d.group = some inner := by
  obtain ⟨d, hd, hf⟩ := List.exists_of_findSome?_eq_some h
  split_ifs at hf with hn
  exact ⟨d, hd, hn, hf⟩

theorem sizeOf_group? {name : String} {inner : Schema} (h : s.group? name = some inner) :
    sizeOf inner < sizeOf s := by
  obtain ⟨d, hd, _, hi⟩ := group?_some h
  obtain ⟨definitions, frozen⟩ := s
  obtain ⟨_, _, _, _, _, group⟩ := d
  obtain rfl : group = some inner := hi
  have hlt := List.sizeOf_lt_of_mem hd
  simp at hlt ⊢
  omega

/-- Induction through the groups of a schema. -/
theorem inductionOn {P : Schema → Prop}
    (step : ∀ s : Schema, (∀ name inner, s.group? name = some inner → P inner) → P s)
    (s : Schema) : P s :=
  step s fun _ inner _ => inductionOn step inner
termination_by s
decreasing_by exact sizeOf_group? ‹_›

theorem All.group (h : s.All P) {name : String} {inner : Schema}
    (hg : s.group? name = some inner) : inner.All P := by
  obtain ⟨d, hd, _, hi⟩ := group?_some hg
  exact h.inside hd hi

theorem All.group?_eq (h : s.All P) (name : String) :
    s.group? name = (s.lookup name).bind Definition.group := by
  cases hl : s.lookup name with
  | none =>
      cases hg : s.group? name with
      | none => rfl
      | some inner =>
          obtain ⟨d, hd, rfl, _⟩ := group?_some hg
          rw [h.lookup_of_mem hd] at hl
          cases hl
  | some d =>
      obtain ⟨hd, hn⟩ := lookup_some hl
      cases hg : s.group? name with
      | none =>
          have hnone := List.findSome?_eq_none_iff.1 hg d hd
          rw [if_pos hn] at hnone
          exact hnone.symm
      | some inner =>
          obtain ⟨e, he, hen, hei⟩ := group?_some hg
          have hde := h.lookup_of_mem he
          rw [hen, hl] at hde
          rw [Option.some.inj hde]
          exact hei.symm

end Schema
end SettingsTree
