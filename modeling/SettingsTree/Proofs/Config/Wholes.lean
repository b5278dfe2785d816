import Mathlib.Data.List.Perm.Basic
import SettingsTree.Proofs.Config.Addresses
import SettingsTree.Proofs.Config.Stripped
import SettingsTree.Proofs.World.Basic

/-!
# A whole configuration and what is read from it

A configuration resolves as a whole exactly if all its single settings do, at every depth. Its map
then has, at the end of every path, what is read there; the keys on the way are the declared names.
Otherwise the fault is that of the first single setting that fails, in declaration order and depth
first.

The single settings are listed through the groups that the configuration has. These need not be
bound to the schemas in their definitions.
-/
namespace SettingsTree

/-- Follows names through maps inside maps. -/
def Value.walk : Value → List String → Option Value
  | v, [] => some v
  | .map entries, name :: rest => ( entry? (.str name) entries).bind (·.walk rest)
  | _, _ :: _ => none

theorem Value.walk_entriesOf (t : Table Value) (name : String) (rest : List String) :
    (Value.map (entriesOf t)).walk (name :: rest) = (Table.find? name t).bind (·.walk rest) := by
  rw [walk, entry?_entriesOf]

theorem Except.fault?_eq_none {α : Type} {result : Except Fault α} :
    Except.fault? result = none ↔ ∃ a, result = .ok a := by
  cases result <;> simp [Except.fault?]

theorem Except.fault?_eq_some {α : Type} {result : Except Fault α} {fault : Fault} :
    Except.fault? result = some fault ↔ result = .error fault := by
  cases result <;> simp [Except.fault?]

theorem Except.fault?_map {α β : Type} (f : α → β) (result : Except Fault α) :
    Except.fault? (result.map f) = Except.fault? result := by
  cases result <;> rfl

namespace Config

/-- The parents of the path lead to a group, in which its leaf is a single setting. -/
def HasSingle (c : Config) (path : Path) : Prop :=
  ∃ inner d, c.descend path.parents = .ok inner ∧ inner.schema.lookup path.leaf = some d ∧
    d.group = none

/-- The paths under the name of a definition, given those in each group. -/
def pathsUnder (groups : List (String × List Path)) (d : Definition) : List Path :=
  match Table.find? d.name groups with
  | some inner => inner.map (Path.under d.name)
  | none => [⟨[], d.name⟩]

mutual

/-- The paths to all single settings, in declaration order and depth first. -/
def singles : Config → List Path
  | ⟨schema, _, groups, _⟩ => schema.definitions.flatMap (pathsUnder (groupSingles groups))

def groupSingles : List (String × Config) → List (String × List Path)
  | [] => []
  | (name, inner) :: rest => (name, singles inner) :: groupSingles rest

end

variable {heap : Heap} {c inner : Config} {path : Path} {walk : List String} {name : String}
  {d : Definition} {v whole : Value} {fault : Fault}

theorem singles_eq (c : Config) :
    c.singles = c.schema.definitions.flatMap (pathsUnder (groupSingles c.groups)) := by
  cases c
  rw [singles]

theorem find?_groupSingles (name : String) (groups : List (String × Config)) :
    Table.find? name (groupSingles groups) = (Table.find? name groups).map singles := by
  induction groups with
  | nil => rfl
  | cons head rest ih =>
      obtain ⟨key, inner⟩ := head
      by_cases same : key = name <;> simp [groupSingles, Table.find?_cons, same, ih]

theorem pathsUnder_of_group (hf : Table.find? d.name c.groups = some inner) :
    pathsUnder (groupSingles c.groups) d = inner.singles.map (Path.under d.name) := by
  rw [pathsUnder, find?_groupSingles, hf]
  rfl

theorem pathsUnder_of_single (hf : Table.find? d.name c.groups = none) :
    pathsUnder (groupSingles c.groups) d = [⟨[], d.name⟩] := by
  rw [pathsUnder, find?_groupSingles, hf]
  rfl

theorem HasSingle.declares (h : c.HasSingle path) : c.Declares path := by
  obtain ⟨inner, d, hd, hl, _⟩ := h
  exact ⟨inner, hd, d, hl⟩

theorem hasSingle_under (hn : c.nested name = .ok inner) :
    c.HasSingle (path.under name) ↔ inner.HasSingle path := by
  rw [HasSingle, Path.under, descend_cons hn]
  rfl

theorem Genuine.mem_singles_iff (h : c.Genuine) (hk : c.Known heap) :
    path ∈ c.singles ↔ c.HasSingle path := by
  induction c using inductionOn generalizing path with
  | step c ih =>
      have hs := hk.here.proper
      rw [singles_eq, List.mem_flatMap]
      constructor
      · rintro ⟨d, hd, hp⟩
        have hl := hs.lookup_of_mem hd
        cases hf : Table.find? d.name c.groups with
        | some inner =>
            rw [pathsUnder_of_group hf] at hp
            obtain ⟨below, hbelow, rfl⟩ := List.mem_map.1 hp
            refine (hasSingle_under (nested_eq_ok.2 ⟨⟨d, hl⟩, hf⟩)).2 ?_
            exact (ih d.name inner hf (h.inside hf) (hk.inside hf)).1 hbelow
        | none =>
            rw [pathsUnder_of_single hf] at hp
            obtain rfl := List.mem_singleton.1 hp
            have hsome := h.isSome_group hs hd
            rw [hf, Option.isSome_none, Definition.isGroup, eq_comm, Option.isSome_eq_false_iff,
              Option.isNone_iff_eq_none] at hsome
            exact ⟨c, d, rfl, hl, hsome⟩
      · obtain ⟨parents, leaf⟩ := path
        rintro ⟨inner, d, hd, hl, hg⟩
        cases parents with
        | nil =>
            obtain rfl := Except.ok.inj hd
            obtain ⟨hm, rfl⟩ := Schema.lookup_some hl
            refine ⟨d, hm, ?_⟩
            rw [pathsUnder_of_single (h.no_group_of_single hl hg)]
            exact List.mem_singleton_self _
        | cons name rest =>
            cases hn : c.nested name with
            | error fault => simp [Config.descend, hn] at hd
            | ok group =>
                obtain ⟨⟨outer, houter⟩, hf⟩ := nested_eq_ok.1 hn
                obtain ⟨hm, rfl⟩ := Schema.lookup_some houter
                refine ⟨outer, hm, ?_⟩
                rw [pathsUnder_of_group hf]
                refine List.mem_map.2 ⟨⟨rest, leaf⟩, ?_, rfl⟩
                refine (ih outer.name group hf (h.inside hf) (hk.inside hf)).2 ?_
                exact ⟨inner, d, by rwa [descend_cons hn] at hd, hl, hg⟩

theorem fault?_valuesOf (values : List (String × Value))
    (groups : List (String × Except Fault Value)) (ds : List Definition) :
    Except.fault? (valuesOf values groups ds) =
      ds.findSome? fun d => Except.fault? (valueOf values groups d) := by
  induction ds with
  | nil => rfl
  | cons d rest ih =>
      rw [valuesOf, List.findSome?_cons]
      cases valueOf values groups d with
      | error fault => rfl
      | ok v => exact (Except.fault?_map _ _).trans ih

theorem fault?_toMap (c : Config) : Except.fault? c.toMap = Except.fault? c.toValue := by
  rw [toValue_eq, Except.fault?_map]

theorem findSome?_flatMap {α β γ : Type} {f : α → List β} {find : β → Option γ}
    {first : α → Option γ} {parts : List α} (h : ∀ a ∈ parts, first a = (f a).findSome? find) :
    (parts.flatMap f).findSome? find = parts.findSome? first := by
  induction parts with
  | nil => rfl
  | cons a rest ih =>
      obtain ⟨ha, hrest⟩ := List.forall_mem_cons.1 h
      rw [List.flatMap_cons, List.findSome?_append, ih hrest, List.findSome?_cons, ha]
      cases (f a).findSome? find <;> rfl

/-- The whole fails with the fault of the first single setting that fails. -/
theorem Known.fault?_toValue (hk : c.Known heap) :
    Except.fault? c.toValue = c.singles.findSome? fun path => Except.fault? (c.getAt path) := by
  induction c using inductionOn with
  | step c ih =>
      have hs := hk.here.proper
      rw [← fault?_toMap, toMap, fault?_valuesOf, singles_eq]
      refine (findSome?_flatMap fun d hd => ?_).symm
      have hl := hs.lookup_of_mem hd
      rw [← value_of_lookup hl]
      cases hf : Table.find? d.name c.groups with
      | some inner =>
          have hbelow : (fun path => Except.fault? (c.getAt path)) ∘ Path.under d.name =
              fun path => Except.fault? (inner.getAt path) :=
            funext fun path => congrArg Except.fault? (getAt_of_group hl hf)
          rw [value_of_group hl hf, ih d.name inner hf (hk.inside hf), pathsUnder_of_group hf,
            List.findSome?_map, hbelow]
      | none =>
          have hread : c.getAt ⟨[], d.name⟩ = c.value d.name := rfl
          rw [pathsUnder_of_single hf, List.findSome?_cons, List.findSome?_nil, hread]
          cases Except.fault? (c.value d.name) <;> rfl

/-- One single setting fails, and all that are listed before it resolve. -/
def FirstFails (c : Config) (fault : Fault) : Prop :=
  ∃ before path later, c.singles = before ++ path :: later ∧
    (∀ earlier ∈ before, ∃ v, c.getAt earlier = .ok v) ∧ c.getAt path = .error fault

theorem Known.toValue_eq_error_iff (hk : c.Known heap) :
    c.toValue = .error fault ↔ c.FirstFails fault := by
  rw [← Except.fault?_eq_some, hk.fault?_toValue, List.findSome?_eq_some_iff]
  constructor
  · rintro ⟨before, path, later, hsplit, hfault, hbefore⟩
    exact ⟨before, path, later, hsplit, fun p hp => Except.fault?_eq_none.1 (hbefore p hp),
      Except.fault?_eq_some.1 hfault⟩
  · rintro ⟨before, path, later, hsplit, hbefore, hfault⟩
    exact ⟨before, path, later, hsplit, Except.fault?_eq_some.2 hfault,
      fun p hp => Except.fault?_eq_none.2 (hbefore p hp)⟩

theorem toMap_eq_error_iff : c.toMap = .error fault ↔ c.toValue = .error fault := by
  rw [← Except.fault?_eq_some, fault?_toMap, Except.fault?_eq_some]

/-- The whole resolves exactly if every single setting does. -/
theorem Genuine.exists_toValue_iff_singles (h : c.Genuine) (hk : c.Known heap) :
    (∃ whole, c.toValue = .ok whole) ↔ ∀ path, c.HasSingle path → ∃ v, c.getAt path = .ok v := by
  rw [← Except.fault?_eq_none, hk.fault?_toValue, List.findSome?_eq_none_iff]
  simp only [h.mem_singles_iff hk, Except.fault?_eq_none]

/-- The map of a group is found where the walk to the group leads in the map of the whole. -/
theorem Known.walk_append (hk : c.Known heap) (hw : c.toValue = .ok whole)
    (hd : c.descend walk = .ok inner) :
    ∃ w, inner.toValue = .ok w ∧ ∀ rest, whole.walk (walk ++ rest) = w.walk rest := by
  induction walk generalizing c whole with
  | nil =>
      obtain rfl := Except.ok.inj hd
      exact ⟨whole, hw, fun _ => rfl⟩
  | cons name later ih =>
      rw [Config.descend] at hd
      cases hn : c.nested name with
      | error fault =>
          rw [hn] at hd
          cases hd
      | ok group =>
          rw [hn] at hd
          obtain ⟨⟨d, hl⟩, hf⟩ := nested_eq_ok.1 hn
          have hs := hk.here.proper
          obtain ⟨t, ht, rfl⟩ := exists_tabulated hs hw
          obtain ⟨g, hg⟩ := (exists_toValue_iff hs).1 ⟨_, hw⟩ name d hl
          have hfound := (ht.find?_eq_some name g).2 ⟨⟨d, hl⟩, hg⟩
          rw [value_of_group hl hf] at hg
          obtain ⟨w, hinner, hrest⟩ := ih (hk.inside hf) hg hd
          refine ⟨w, hinner, fun rest => ?_⟩
          rw [List.cons_append, Value.walk_entriesOf, hfound]
          exact hrest rest

theorem Known.walk_segments (hk : c.Known heap) (hw : c.toValue = .ok whole)
    (hv : c.getAt path = .ok v) : whole.walk path.segments = some v := by
  rw [getAt] at hv
  cases hd : c.descend path.parents with
  | error fault =>
      rw [hd] at hv
      cases hv
  | ok inner =>
      rw [hd] at hv
      obtain ⟨w, hinner, hrest⟩ := hk.walk_append hw hd
      obtain ⟨t, ht, rfl⟩ := exists_tabulated (hk.descend hd).here.proper hinner
      have hl : ∃ d, inner.schema.lookup path.leaf = some d := by
        refine Option.ne_none_iff_exists'.1 fun hnone => ?_
        simp [value, get, definition, hnone] at hv
      rw [Path.segments, hrest, Value.walk_entriesOf,
        (ht.find?_eq_some path.leaf v).2 ⟨hl, hv⟩]
      rfl

theorem Tabulated.perm_names {t : Table Value} (ht : c.Tabulated t) (hs : c.schema.Proper)
    (hw : c.toValue = .ok whole) : (Table.names t).Perm c.schema.names := by
  have hnodup : (Table.names t).Nodup := ht.sorted.imp String.ne_of_lt
  refine (List.perm_ext_iff_of_nodup hnodup hs.distinct).2 fun name => ?_
  rw [← ht.exists_find?_iff hs hw, ← not_iff_not, ← Table.find?_eq_none_iff]
  exact Option.eq_none_iff_forall_ne_some.trans not_exists.symm

theorem names_of_valuesOf {values : List (String × Value)}
    {groups : List (String × Except Fault Value)} {ds : List Definition}
    {fields : List (String × Value)} (h : valuesOf values groups ds = .ok fields) :
    fields.map Prod.fst = ds.map Definition.name := by
  induction ds generalizing fields with
  | nil =>
      obtain rfl := Except.ok.inj h
      rfl
  | cons d rest ih =>
      rw [valuesOf] at h
      split at h
      · cases h
      · cases hr : valuesOf values groups rest with
        | error fault => simp [hr, Except.map] at h
        | ok others =>
            rw [hr] at h
            obtain rfl := Except.ok.inj h
            exact congrArg (d.name :: ·) (ih hr)

/-- What the map of a whole configuration has to do with what is read from it. -/
structure Flattens (c : Config) (whole : Value) : Prop where
  /-- Whatever is read at a path is found at the end of the path. -/
  walked : ∀ (path : Path) v, c.getAt path = .ok v → whole.walk path.segments = some v
  /-- Where a walk leads to a group, there is a map with the declared names as keys. -/
  keys : ∀ walk inner, c.descend walk = .ok inner → ∃ entries,
    whole.walk walk = some (.map entries) ∧
      (entries.map Prod.fst).Perm (inner.schema.names.map .str)
  /-- The names at the top are listed in declaration order, with the same values. -/
  listed : ∃ fields, c.toMap = .ok fields ∧ fields.map Prod.fst = c.schema.names ∧
    ∀ name v, (name, v) ∈ fields → c.value name = .ok v ∧ whole.walk [name] = some v

theorem Known.flattens (hk : c.Known heap) (hw : c.toValue = .ok whole) : c.Flattens whole where
  walked _ _ hv := hk.walk_segments hw hv
  keys walk inner hd := by
    obtain ⟨w, hinner, hrest⟩ := hk.walk_append hw hd
    have hs := (hk.descend hd).here.proper
    obtain ⟨t, ht, rfl⟩ := exists_tabulated hs hinner
    have hwalk := hrest []
    rw [List.append_nil] at hwalk
    refine ⟨Value.entriesOf t, hwalk.trans rfl, ?_⟩
    have hkeys : (Value.entriesOf t).map Prod.fst = (Table.names t).map .str := by
      rw [Value.entriesOf, Table.names, List.map_map, List.map_map]
      rfl
    rw [hkeys]
    exact (ht.perm_names hs hinner).map _
  listed := by
    obtain ⟨fields, hfields⟩ : ∃ fields, c.toMap = .ok fields := by
      rw [← Except.fault?_eq_none, fault?_toMap]
      exact Except.fault?_eq_none.2 ⟨whole, hw⟩
    refine ⟨fields, hfields, names_of_valuesOf hfields, fun name v hm => ?_⟩
    obtain ⟨_, hv⟩ := (mem_of_toMap hk.here.proper hfields).1 hm
    have hread : c.getAt ⟨[], name⟩ = .ok v := hv
    exact ⟨hv, hk.walk_segments hw hread⟩

end Config
end SettingsTree
