import SettingsTree.Proofs.Schema.Growth

/-!
# Where merging and taking in differ

A schema can be merged with another one, or it can take in the definitions of the other one as
they are. Both ways it ends up with the same names in the same order. They differ only under the
names that are groups on both sides: what takes in has the group of the other schema and nothing
of its own, while the merge has a new group with what both sides hold. A frozen schema can be
merged, but takes in nothing.
-/
namespace SettingsTree

theorem Stamp.merged_ne (ours theirs : Stamp) : Stamp.merged ours theirs ≠ theirs := by
  intro h
  have hsize := congrArg sizeOf h
  simp at hsize

namespace Definition

/-- What is inserted hides what was there under its name. -/
theorem find?_insertAll_of_nodup (name : String) {theirs : List Definition}
    (hn : (theirs.map Definition.name).Nodup) (ours : List Definition) :
    find? name (insertAll theirs ours) = (find? name theirs).or (find? name ours) := by
  induction theirs generalizing ours with
  | nil => rfl
  | cons d rest ih =>
      rw [List.map_cons, List.nodup_cons] at hn
      have hstep : find? name (insertAll rest (d.insert ours)) = _ := ih hn.2 (d.insert ours)
      refine hstep.trans ?_
      rw [find?_insert, find?]
      by_cases he : d.name = name
      · rw [he] at hn
        rw [find?_eq_none_iff.2 hn.1, if_pos he, if_pos he, Option.none_or, Option.some_or]
      · rw [if_neg he, if_neg he]

theorem names_insert_congr {d e : Definition} {ds es : List Definition} (hd : d.name = e.name)
    (hds : ds.map name = es.map name) : (d.insert ds).map name = (e.insert es).map name := by
  rw [names_insert, names_insert, hd, hds]

theorem names_insertAll_congr {theirs theirs' ours ours' : List Definition}
    (ht : theirs.map name = theirs'.map name) (ho : ours.map name = ours'.map name) :
    (insertAll theirs ours).map name = (insertAll theirs' ours').map name := by
  induction theirs generalizing theirs' ours ours' with
  | nil =>
      obtain rfl := List.map_eq_nil_iff.1 ht.symm
      exact ho
  | cons d rest ih =>
      obtain ⟨e, rest', rfl, hd, hrest⟩ := List.map_eq_cons_iff.1 ht.symm
      have hstep := ih hrest.symm (names_insert_congr hd.symm ho)
      exact hstep

/-- A definition stays what it is in a merge unless it is a group and meets one. -/
theorem joined_eq_self_iff {ours : Option Definition} {d : Definition} :
    d.joined ours = d ↔ ¬(ours.bind group).isSome ∨ d.group = none := by
  constructor
  · intro h
    by_contra! hboth
    obtain ⟨mine, hm⟩ := Option.isSome_iff_exists.1 hboth.1
    obtain ⟨inner, hg⟩ := Option.ne_none_iff_exists'.1 hboth.2
    obtain ⟨⟨stamp, _, _, _, _, group⟩, rfl, rfl : group = some mine⟩ :=
      Option.bind_eq_some_iff.1 hm
    have hstamp := congrArg Definition.stamp h
    simp only [joined, hg] at hstamp
    exact Stamp.merged_ne stamp d.stamp hstamp
  · rintro (hm | hg)
    · exact joined_of_no_group (Option.not_isSome_iff_eq_none.1 hm)
    · exact joined_of_single hg ours

end Definition

namespace Schema
variable {ours theirs : Schema} {name : String} {d : Definition}

theorem incorporate_duplicate (ours theirs : Schema) :
    ours.duplicate.incorporate theirs =
      .done ⟨Definition.insertAll theirs.definitions ours.definitions, false⟩ := rfl

theorem incorporate_of_frozen (hz : ours.frozen = true) :
    (theirs.definitions = [] → ours.incorporate theirs = .done ours) ∧
      ∀ first rest, theirs.definitions = first :: rest →
        ours.incorporate theirs = .failed ours (.frozenSchema first.name) := by
  refine ⟨fun hnil => ?_, fun first rest hcons => incorporate_cons_of_frozen hz hcons⟩
  rw [incorporate_of_allowed (.inr hnil), hnil]
  cases ours
  rfl

theorem lookup_insertAll (ours : Schema) (ht : theirs.Proper) (frozen : Bool) (name : String) :
    (Schema.mk (Definition.insertAll theirs.definitions ours.definitions) frozen).lookup name =
      (theirs.lookup name).or (ours.lookup name) :=
  Definition.find?_insertAll_of_nodup name ht.distinct ours.definitions

theorem names_merge_eq_names_insertAll (ours : Schema) (ht : theirs.Proper) :
    (ours.merge theirs).names =
      (Definition.insertAll theirs.definitions ours.definitions).map Definition.name := by
  rw [names, definitions_merge, mergeInto_eq_insertAll ht.distinct]
  refine Definition.names_insertAll_congr ?_ rfl
  rw [List.map_map]
  exact List.map_congr_left fun d _ => Definition.name_joined _ d

/-- Both sides have a group under the name. -/
def Collide (ours theirs : Schema) (name : String) : Prop :=
  ours.HasGroup ⟨[], name⟩ ∧ theirs.HasGroup ⟨[], name⟩

theorem joined_eq_self_iff_not_collide (hd : theirs.lookup name = some d) :
    d.joined (ours.lookup name) = d ↔ ¬ours.Collide theirs name := by
  rw [Definition.joined_eq_self_iff, Collide, not_and_or]
  refine or_congr (not_congr ?_) ?_
  · rw [Option.isSome_iff_exists]
    simp only [HasGroup, at?_nil, Option.bind_eq_some_iff]
    exact exists_comm
  · simp [HasGroup, hd, Option.eq_none_iff_forall_ne_some]

/-- Merging with a schema and taking in its definitions give the same names in the same order,
and under each name the same definition, except where two groups collide. There what takes in
holds the group of the other schema, with all that is below it. The merge holds a new group: in
it is the merge of what the two held, and the rest is that of the other schema. A frozen schema
takes in nothing, but what it is merged to is open. -/
theorem merge_eq_incorporate_off_collisions (ours : Schema) {theirs : Schema}
    (ht : theirs.Proper) :
    (∃ included, ours.duplicate.incorporate theirs = .done included ∧
      (ours.merge theirs).names = included.names ∧
      (∀ name, (ours.merge theirs).lookup name = included.lookup name ↔
        ¬ours.Collide theirs name) ∧
      ∀ name e d mine inner, ours.lookup name = some e → e.group = some mine →
        theirs.lookup name = some d → d.group = some inner →
        included.lookup name = some d ∧
          (∀ rest leaf, included.at? ⟨name :: rest, leaf⟩ = theirs.at? ⟨name :: rest, leaf⟩) ∧
          (ours.merge theirs).lookup name =
            some { d with stamp := .merged e.stamp d.stamp, group := some (mine.merge inner) }) ∧
    (ours.merge theirs).frozen = false ∧
    (ours.frozen = true → (theirs.definitions = [] → ours.incorporate theirs = .done ours) ∧
      ∀ first rest, theirs.definitions = first :: rest →
        ours.incorporate theirs = .failed ours (.frozenSchema first.name)) := by
  refine ⟨⟨_, incorporate_duplicate ours theirs, names_merge_eq_names_insertAll ours ht,
    fun name => ?_, fun name e d mine inner he hm hd hi => ?_⟩, ?_, incorporate_of_frozen⟩
  · rw [lookup_merge ours ht, lookup_insertAll ours ht]
    cases hd : theirs.lookup name with
    | none => simp [Collide, HasGroup, hd]
    | some d =>
        rw [Option.some_or, Option.some_inj]
        exact joined_eq_self_iff_not_collide hd
  · have hincluded : (Schema.mk (Definition.insertAll theirs.definitions ours.definitions)
        false).lookup name = some d := by
      rw [lookup_insertAll ours ht, hd, Option.some_or]
    refine ⟨hincluded, fun rest leaf => ?_, ?_⟩
    · rw [at?_of_group hincluded hi, at?_of_group hd hi]
    · obtain ⟨stamp, _, _, _, _, group⟩ := e
      obtain rfl : group = some mine := hm
      rw [lookup_merge ours ht, hd, he]
      simp only [Definition.joined, hi]
  · cases theirs
    rw [merge]

/-- The group `g` is on both sides: its `h` is a group on the one and a single setting on the
other, and only the merge keeps its `x`. The first schema is frozen and takes in nothing. -/
theorem merge_eq_incorporate_off_collisions_grouped_flattened :
    flattened.Proper ∧ grouped.frozen = true ∧ grouped.Collide flattened "g" ∧
      (∃ included, grouped.duplicate.incorporate flattened = .done included ∧
        (grouped.merge flattened).names = included.names ∧
        (grouped.merge flattened).lookup "g" ≠ included.lookup "g" ∧
        included.at? ⟨["g"], "x"⟩ = none ∧
        ∃ d, (grouped.merge flattened).at? ⟨["g"], "x"⟩ = some d) ∧
      grouped.incorporate flattened = .failed grouped (.frozenSchema "g") := by
  obtain ⟨⟨included, hincluded, hnames, hlookup, hgroups⟩, _, hfrozen⟩ :=
    merge_eq_incorporate_off_collisions grouped proper_flattened
  have hcollide : grouped.Collide flattened "g" := ⟨⟨_, _, rfl, rfl⟩, ⟨_, _, rfl, rfl⟩⟩
  refine ⟨proper_flattened, rfl, hcollide, ⟨included, hincluded, hnames,
    fun hsame => (hlookup "g").1 hsame hcollide, ?_, _, rfl⟩, (hfrozen rfl).2 _ _ rfl⟩
  obtain ⟨_, hbelow, _⟩ := hgroups "g" _ _ _ _ rfl rfl rfl rfl
  exact hbelow [] "x"

end Schema
end SettingsTree
