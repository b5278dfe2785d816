import Mathlib.Data.List.Flatten
import Mathlib.Data.List.Nodup
import SettingsTree.Proofs.Paths
import SettingsTree.Proofs.Value.Maps

/-!
# Batches as a schema reads them

A batch has the shape of a schema if its keys are declared names and there is a map of the shape
of the group, again, under the name of every group. Such a batch is a list of assignments to
single settings, each at a path of its own.

One batch is put over another by going into groups; a value of a single setting replaces the
other one as a whole, even if both are maps. For batches without a common path it does not
matter which one is put over which.
-/
namespace SettingsTree

namespace Value

/-- The keys ascend in the map, and again in the maps among its values. -/
inductive Ascending : Value → Prop where
  | map (entries : List (Value × Value))
      (keys : entries.Pairwise fun a b => a.1.compare b.1 = .lt)
      (values : ∀ entry ∈ entries, Ascending entry.2) : Ascending (.map entries)
  | other (v : Value) (plain : ∀ entries, v ≠ .map entries) : Ascending v

variable {t : Table Value}

theorem ascending_entriesOf (ht : Table.Sorted t) (h : ∀ entry ∈ t, entry.2.Ascending) :
    Ascending (.map (entriesOf t)) := by
  refine .map _ (List.pairwise_map.2 ((List.pairwise_map.1 ht).imp fun {a b} hlt => ?_)) ?_
  · exact (compare_str a.1 b.1).trans (if_pos hlt)
  · exact fun entry he => by
      obtain ⟨pair, hp, rfl⟩ := List.mem_map.1 he
      exact h pair hp

theorem Ascending.sorted (h : Ascending (.map (entriesOf t))) : Table.Sorted t := by
  cases h with
  | other _ plain => exact absurd rfl (plain _)
  | map _ keys _ =>
      refine List.pairwise_map.2 ((List.pairwise_map.1 keys).imp fun {a b} hlt => ?_)
      rw [compare_str] at hlt
      by_contra hnot
      rw [if_neg hnot] at hlt
      split_ifs at hlt

theorem Ascending.value {name : String} {v : Value} (h : Ascending (.map (entriesOf t)))
    (hf : Table.find? name t = some v) : v.Ascending := by
  cases h with
  | other _ plain => exact absurd rfl (plain _)
  | map _ _ values =>
      exact values (.str name, v) (List.mem_map.2 ⟨(name, v), Table.mem_of_find? hf, rfl⟩)

theorem entry?_entriesOf (name : String) (t : Table Value) :
    entry? (.str name) (entriesOf t) = Table.find? name t := by
  induction t with
  | nil => rfl
  | cons head rest ih =>
      obtain ⟨key, v⟩ := head
      have hsame : (Value.str name).same (.str key) = true ↔ key = name := by
        rw [same, beq_iff_eq, compare, Std.LawfulEqOrd.compare_eq_iff_eq, eq_comm]
      rw [entriesOf_cons, entry?, Table.find?_cons, ih]
      simp only [hsame]

end Value

namespace Schema

/-- The batch has the shape of the schema: its keys are names of it, and under the name of each
group it has a map of the shape of the group. -/
inductive Takes : Schema → Value → Prop where
  | intro (s : Schema) (batch : Table Value) (sorted : Table.Sorted batch)
      (declared : ∀ name raw, Table.find? name batch = some raw → ∃ d, s.lookup name = some d)
      (inside : ∀ name raw d inner, Table.find? name batch = some raw →
        s.lookup name = some d → d.group = some inner → Takes inner raw) :
      Takes s (.map (Value.entriesOf batch))

theorem takes_entriesOf {s : Schema} {t : Table Value} (ht : Table.Sorted t)
    (h : ∀ entry ∈ t, ∃ d, s.lookup entry.1 = some d ∧
      ∀ inner, d.group = some inner → Takes inner entry.2) :
    s.Takes (.map (Value.entriesOf t)) := by
  refine .intro s t ht (fun name raw hf => ?_) fun name raw d inner hf hl hg => ?_
  · obtain ⟨d, hl, _⟩ := h (name, raw) (Table.mem_of_find? hf)
    exact ⟨d, hl⟩
  · obtain ⟨e, he, hinside⟩ := h (name, raw) (Table.mem_of_find? hf)
    obtain rfl := Option.some.inj (hl.symm.trans he)
    exact hinside inner hg

mutual

/-- The assignments to single settings that a batch consists of, depth first in the order of the
keys. -/
def assignments (s : Schema) : Value → List (Path × Value)
  | .map entries => s.assignmentsOf entries
  | _ => []

def assignmentsOf (s : Schema) : List (Value × Value) → List (Path × Value)
  | [] => []
  | (.str name, raw) :: rest =>
      (match (s.lookup name).bind Definition.group with
        | some inner => (inner.assignments raw).map fun (path, v) => (path.under name, v)
        | none => [(⟨[], name⟩, raw)]) ++ s.assignmentsOf rest
  | _ :: rest => s.assignmentsOf rest

end

def assignmentsAt (s : Schema) (name : String) (raw : Value) : List (Path × Value) :=
  match (s.lookup name).bind Definition.group with
  | some inner => (inner.assignments raw).map fun (path, v) => (path.under name, v)
  | none => [(⟨[], name⟩, raw)]

variable {s inner : Schema} {name : String} {d : Definition} {raw batch : Value}
  {e : Path × Value}

theorem assignmentsOf_entriesOf (s : Schema) (t : Table Value) :
    s.assignmentsOf (Value.entriesOf t) =
      t.flatMap fun entry => s.assignmentsAt entry.1 entry.2 := by
  induction t with
  | nil => rfl
  | cons head rest ih =>
      obtain ⟨name, raw⟩ := head
      rw [Value.entriesOf_cons, assignmentsOf, List.flatMap_cons, ih]
      rfl

theorem assignmentsAt_of_single (hl : s.lookup name = some d) (hg : d.group = none)
    (raw : Value) : s.assignmentsAt name raw = [(⟨[], name⟩, raw)] := by
  rw [assignmentsAt, hl, Option.bind_some, hg]

theorem assignmentsAt_of_group (hl : s.lookup name = some d) (hg : d.group = some inner)
    (raw : Value) : s.assignmentsAt name raw =
      (inner.assignments raw).map fun (path, v) => (path.under name, v) := by
  rw [assignmentsAt, hl, Option.bind_some, hg]

theorem head_of_mem_assignmentsAt (h : e ∈ s.assignmentsAt name raw) :
    e.1.segments.head? = some name := by
  unfold assignmentsAt at h
  split at h
  · obtain ⟨below, _, rfl⟩ := List.mem_map.1 h
    rfl
  · obtain rfl := List.mem_singleton.1 h
    rfl

theorem Takes.hasSingle (h : s.Takes batch) (he : e ∈ s.assignments batch) :
    s.HasSingle e.1 := by
  induction h generalizing e with
  | intro s t sorted declared _ ih =>
      rw [assignments, assignmentsOf_entriesOf] at he
      obtain ⟨⟨name, raw⟩, hm, he⟩ := List.mem_flatMap.1 he
      have hf := sorted.find?_of_mem hm
      obtain ⟨d, hl⟩ := declared name raw hf
      cases hg : d.group with
      | none =>
          rw [assignmentsAt_of_single hl hg, List.mem_singleton] at he
          obtain rfl := he
          exact ⟨d, hl, hg⟩
      | some inner =>
          rw [assignmentsAt_of_group hl hg] at he
          obtain ⟨below, hb, rfl⟩ := List.mem_map.1 he
          exact (hasSingle_cons hl hg).2 (ih name raw d inner hf hl hg hb)

theorem Takes.nodup (h : s.Takes batch) : ((s.assignments batch).map Prod.fst).Nodup := by
  induction h with
  | intro s t sorted declared _ ih =>
      rw [assignments, assignmentsOf_entriesOf, List.map_flatMap, List.nodup_flatMap]
      constructor
      · rintro ⟨name, raw⟩ hm
        have hf := sorted.find?_of_mem hm
        obtain ⟨d, hl⟩ := declared name raw hf
        cases hg : d.group with
        | none =>
            simp only [assignmentsAt_of_single hl hg]
            exact List.nodup_singleton _
        | some inner =>
            have hbelow := (ih name raw d inner hf hl hg).map (Path.under_injective name)
            simp only [assignmentsAt_of_group hl hg, List.map_map]
            rwa [List.map_map] at hbelow
      · -- The paths of different entries begin with different names.
        refine (List.pairwise_map.1 sorted).imp fun {a b} hlt path ha hb => ?_
        obtain ⟨e, he, rfl⟩ := List.mem_map.1 ha
        obtain ⟨e', he', hpath⟩ := List.mem_map.1 hb
        have hhead := head_of_mem_assignmentsAt he
        rw [← hpath, head_of_mem_assignmentsAt he'] at hhead
        exact String.lt_irrefl _ (Option.some.inj hhead ▸ hlt)

theorem Takes.parse_join (h : s.Takes batch) (hn : s.Named)
    (he : e ∈ s.assignments batch) : Path.parse e.1.join = e.1 := by
  obtain ⟨d, hd, _⟩ := h.hasSingle he
  exact Path.parse_join fun segment hs => not_dot_mem_of_isIdentifier (hn.segments hd segment hs)

mutual

/-- A batch with another one over it. -/
def overridden (s : Schema) (below : Value) : Value → Value
  | .map above =>
      match below with
      | .map entries => .map (s.overriddenEntries entries above)
      | _ => .map above
  | above => above

def overriddenEntries (s : Schema) (below : List (Value × Value)) :
    List (Value × Value) → List (Value × Value)
  | [] => below
  | (.str name, v) :: rest =>
      Value.insertEntry (.str name)
        (match (s.lookup name).bind Definition.group, Value.entry? (.str name) below with
          | some inner, some old => inner.overridden old v
          | _, _ => v)
        (s.overriddenEntries below rest)
  | (key, v) :: rest => Value.insertEntry key v (s.overriddenEntries below rest)

end

def overriddenAt (s : Schema) (name : String) (below : Option Value) (above : Value) : Value :=
  match (s.lookup name).bind Definition.group, below with
  | some inner, some old => inner.overridden old above
  | _, _ => above

def overriddenTable (s : Schema) (t : Table Value) : Table Value → Table Value
  | [] => t
  | (name, v) :: rest =>
      Table.insert name (s.overriddenAt name (Table.find? name t) v) (s.overriddenTable t rest)

theorem overridden_entriesOf (s : Schema) (t u : Table Value) :
    s.overridden (.map (Value.entriesOf t)) (.map (Value.entriesOf u)) =
      .map (Value.entriesOf (s.overriddenTable t u)) := by
  rw [overridden]
  refine congrArg Value.map ?_
  induction u with
  | nil => rfl
  | cons head rest ih =>
      obtain ⟨name, v⟩ := head
      rw [Value.entriesOf_cons, overriddenEntries, ih, Value.entry?_entriesOf,
        Value.insertEntry_entriesOf]
      rfl

theorem find?_overriddenTable (s : Schema) (t u : Table Value) (name : String) :
    Table.find? name (s.overriddenTable t u) =
      ((Table.find? name u).map (s.overriddenAt name (Table.find? name t))).or
        (Table.find? name t) := by
  induction u with
  | nil => rfl
  | cons head rest ih =>
      obtain ⟨key, v⟩ := head
      rw [overriddenTable, Table.find?_insert, Table.find?_cons, ih]
      by_cases he : key = name
      · subst he
        rw [if_pos rfl, if_pos rfl, Option.map_some, Option.some_or]
      · rw [if_neg (Ne.symm he), if_neg he]

theorem sorted_overriddenTable {t : Table Value} (ht : Table.Sorted t) (u : Table Value) :
    Table.Sorted (s.overriddenTable t u) := by
  induction u with
  | nil => exact ht
  | cons head rest ih => exact ih.insert _ _

theorem overriddenAt_none (s : Schema) (name : String) (v : Value) :
    s.overriddenAt name none v = v := by
  unfold overriddenAt
  split
  · next h => cases h
  · rfl

theorem overriddenAt_of_single (hl : s.lookup name = some d) (hg : d.group = none)
    (below : Option Value) (v : Value) : s.overriddenAt name below v = v := by
  simp only [overriddenAt, hl, Option.bind_some, hg]

theorem overriddenAt_of_group (hl : s.lookup name = some d) (hg : d.group = some inner)
    (old v : Value) : s.overriddenAt name (some old) v = inner.overridden old v := by
  simp only [overriddenAt, hl, Option.bind_some, hg]

/-- No path is assigned to by both batches. -/
def Apart (s : Schema) (a b : Value) : Prop :=
  List.Disjoint ((s.assignments a).map Prod.fst) ((s.assignments b).map Prod.fst)

/-- What two batches have under a common name is apart as well. -/
theorem Apart.at {t u : Table Value} {v w : Value}
    (h : s.Apart (.map (Value.entriesOf t)) (.map (Value.entriesOf u)))
    (ht : Table.find? name t = some v) (hu : Table.find? name u = some w) :
    List.Disjoint ((s.assignmentsAt name v).map Prod.fst)
      ((s.assignmentsAt name w).map Prod.fst) := by
  have hmem : ∀ {t : Table Value} {v : Value}, Table.find? name t = some v →
      ∀ path ∈ (s.assignmentsAt name v).map Prod.fst,
        path ∈ (s.assignments (.map (Value.entriesOf t))).map Prod.fst := by
    intro t v hf path hp
    obtain ⟨e, he, rfl⟩ := List.mem_map.1 hp
    rw [assignments, assignmentsOf_entriesOf]
    exact List.mem_map_of_mem (List.mem_flatMap.2 ⟨(name, v), Table.mem_of_find? hf, he⟩)
  exact fun path hv hw => h (hmem ht path hv) (hmem hu path hw)

theorem Apart.inside {t u : Table Value} {v w : Value}
    (h : s.Apart (.map (Value.entriesOf t)) (.map (Value.entriesOf u)))
    (ht : Table.find? name t = some v) (hu : Table.find? name u = some w)
    (hl : s.lookup name = some d) (hg : d.group = some inner) : inner.Apart v w := by
  have hat := h.at ht hu
  rw [assignmentsAt_of_group hl hg, assignmentsAt_of_group hl hg, List.map_map, List.map_map] at hat
  intro path hv hw
  obtain ⟨e, he, rfl⟩ := List.mem_map.1 hv
  obtain ⟨e', he', hpath⟩ := List.mem_map.1 hw
  exact hat (a := e.1.under name) (List.mem_map.2 ⟨e, he, rfl⟩)
    (List.mem_map.2 ⟨e', he', congrArg (Path.under name) hpath⟩)

theorem Apart.not_single {t u : Table Value} {v w : Value}
    (h : s.Apart (.map (Value.entriesOf t)) (.map (Value.entriesOf u)))
    (ht : Table.find? name t = some v) (hu : Table.find? name u = some w)
    (hl : s.lookup name = some d) : d.group ≠ none := by
  intro hg
  have hat := h.at ht hu
  rw [assignmentsAt_of_single hl hg, assignmentsAt_of_single hl hg] at hat
  exact absurd hat (by simp)

theorem Takes.overridden_comm {a b : Value} (ha : s.Takes a) (hb : s.Takes b)
    (h : s.Apart a b) : s.overridden a b = s.overridden b a := by
  induction ha generalizing b with
  | intro s t ht declared _ ih =>
      cases hb with
      | intro _ u hu _ inside =>
          rw [overridden_entriesOf, overridden_entriesOf]
          refine congrArg (Value.map ∘ Value.entriesOf) ?_
          refine (sorted_overriddenTable ht u).ext (sorted_overriddenTable hu t) fun name => ?_
          rw [find?_overriddenTable, find?_overriddenTable]
          cases hv : Table.find? name t with
          | none =>
              cases Table.find? name u with
              | none => rfl
              | some w => exact congrArg some (overriddenAt_none s name w)
          | some v =>
              cases hw : Table.find? name u with
              | none => exact congrArg some (overriddenAt_none s name v).symm
              | some w =>
                  obtain ⟨d, hl⟩ := declared name v hv
                  cases hg : d.group with
                  | none => exact absurd hg (h.not_single hv hw hl)
                  | some inner =>
                      simp only [Option.map_some, Option.some_or, overriddenAt_of_group hl hg]
                      exact congrArg some (ih name v d inner hv hl hg
                        (inside name w d inner hw hl hg) (h.inside hv hw hl hg))

end Schema
end SettingsTree
