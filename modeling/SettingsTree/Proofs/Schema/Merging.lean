import SettingsTree.Proofs.Schema.Paths

/-!
# Merged schemas, path by path

A merge is described by what stands at each path. Where the second schema declares
something, its definition stands in the merge, with the two groups merged if the first
schema has a group there too. Where the second schema spares a path, the merge has what
the first one has. Below a single setting of the second schema nothing is left.
-/
namespace SettingsTree

namespace Definition

/-- What a definition becomes in a merge, given the definition that stood under its name. -/
def joined (ours : Option Definition) (d : Definition) : Definition :=
  match d.group, ours with
  | some inner, some ⟨stamp, _, _, _, _, some mine⟩ =>
      { d with stamp := .merged stamp d.stamp, group := some (mine.merge inner) }
  | _, _ => d

@[simp] theorem name_joined (ours : Option Definition) (d : Definition) :
    (d.joined ours).name = d.name := by
  unfold joined
  split <;> rfl

theorem joined_of_single {d : Definition} (hg : d.group = none) (ours : Option Definition) :
    d.joined ours = d := by
  simp [joined, hg]

theorem joined_of_no_group {d : Definition} {ours : Option Definition}
    (hn : ours.bind group = none) : d.joined ours = d := by
  unfold joined
  split
  · cases hn
  · rfl

theorem group_joined {d : Definition} {ours : Option Definition} {mine inner : Schema}
    (hm : ours.bind group = some mine) (hg : d.group = some inner) :
    (d.joined ours).group = some (mine.merge inner) := by
  obtain ⟨⟨stamp, name, fallback, construct, reader, group⟩, rfl, hm⟩ :=
    Option.bind_eq_some_iff.1 hm
  obtain rfl : group = some mine := hm
  simp [joined, hg]

theorem isSome_group_joined (ours : Option Definition) (d : Definition) :
    (d.joined ours).group.isSome = d.group.isSome := by
  unfold joined
  split
  · next h => simp [h]
  · rfl

end Definition

namespace Schema

theorem mergeInto_cons (collected : List Definition) (d : Definition) (rest : List Definition) :
    mergeInto collected (d :: rest) =
      mergeInto ((d.joined (Definition.find? d.name collected)).insert collected) rest := by
  obtain ⟨stamp, name, fallback, construct, reader, _ | inner⟩ := d
  · rfl
  · rw [mergeInto]
    unfold Definition.joined
    split <;> simp_all

theorem find?_mergeInto (name : String) {theirs : List Definition}
    (hn : (theirs.map Definition.name).Nodup) (collected : List Definition) :
    Definition.find? name (mergeInto collected theirs) =
      match Definition.find? name theirs with
      | some d => some (d.joined (Definition.find? name collected))
      | none => Definition.find? name collected := by
  induction theirs generalizing collected with
  | nil => rfl
  | cons d rest ih =>
      rw [List.map_cons, List.nodup_cons] at hn
      rw [mergeInto_cons, ih hn.2, Definition.find?_insert, Definition.name_joined,
        Definition.find?]
      by_cases he : d.name = name
      · rw [he] at hn ⊢
        simp [Definition.find?_eq_none_iff.2 hn.1]
      · simp [he]

theorem definitions_merge (ours theirs : Schema) :
    (ours.merge theirs).definitions = mergeInto ours.definitions theirs.definitions := by
  cases theirs
  rw [merge]

variable {ours theirs : Schema} {path : Path}

theorem lookup_merge (ours : Schema) (ht : theirs.Proper) (name : String) :
    (ours.merge theirs).lookup name =
      match theirs.lookup name with
      | some d => some (d.joined (ours.lookup name))
      | none => ours.lookup name := by
  rw [lookup, definitions_merge]
  exact find?_mergeInto name ht.distinct ours.definitions

/-- The first schema keeps its names in their places, and the new names of the second
one follow in their order. -/
theorem names_mergeInto {theirs : List Definition} (hn : (theirs.map Definition.name).Nodup)
    (collected : List Definition) :
    (mergeInto collected theirs).map Definition.name =
      collected.map Definition.name ++
        (theirs.map Definition.name).filter (· ∉ collected.map Definition.name) := by
  induction theirs generalizing collected with
  | nil => simp [mergeInto]
  | cons d rest ih =>
      rw [List.map_cons, List.nodup_cons] at hn
      rw [mergeInto_cons, ih hn.2, Definition.names_insert, Definition.name_joined]
      by_cases hm : d.name ∈ collected.map Definition.name
      · rw [if_pos hm, List.map_cons, List.filter_cons_of_neg (by simpa using hm)]
      · -- The name has just been added, but it does not come again.
        have hrest : (rest.map Definition.name).filter
              (· ∉ collected.map Definition.name ++ [d.name]) =
            (rest.map Definition.name).filter (· ∉ collected.map Definition.name) := by
          refine List.filter_congr fun other ho => ?_
          have hne : other ≠ d.name := fun he => hn.1 (he ▸ ho)
          simp [hne]
        rw [if_neg hm, hrest, List.map_cons, List.filter_cons_of_pos (by simpa using hm)]
        simp

theorem names_merge (ours : Schema) (ht : theirs.Proper) :
    (ours.merge theirs).names = ours.names ++ theirs.names.filter (· ∉ ours.names) := by
  rw [names, definitions_merge]
  exact names_mergeInto ht.distinct ours.definitions

theorem descend_merge {walk : List String} {mine inner : Schema} (ht : theirs.Proper)
    (hm : ours.descend walk = some mine) (hi : theirs.descend walk = some inner) :
    (ours.merge theirs).descend walk = some (mine.merge inner) ∧ inner.Proper := by
  induction walk generalizing ours theirs with
  | nil =>
      obtain rfl := Option.some.inj hm
      obtain rfl := Option.some.inj hi
      exact ⟨rfl, ht⟩
  | cons name rest ih =>
      rw [descend] at hm hi
      obtain ⟨ours', ho, hm⟩ := Option.bind_eq_some_iff.1 hm
      obtain ⟨theirs', hl, hi⟩ := Option.bind_eq_some_iff.1 hi
      obtain ⟨d, hd, hg⟩ := Option.bind_eq_some_iff.1 hl
      have hproper : theirs'.Proper := ht.inside (lookup_some hd).1 hg
      obtain ⟨hdescend, hinner⟩ := ih hproper hm hi
      refine ⟨?_, hinner⟩
      rw [descend, lookup_merge ours ht, hd]
      simp only [Option.bind_some, Definition.group_joined ho hg]
      exact hdescend

/-- What the second schema declares at a path stands there in the merge. -/
theorem at?_merge_of_declared {d : Definition} (ht : theirs.Proper)
    (hd : theirs.at? path = some d) :
    (ours.merge theirs).at? path = some (d.joined (ours.at? path)) := by
  obtain ⟨parents, leaf⟩ := path
  induction parents generalizing ours theirs with
  | nil =>
      rw [at?_nil] at hd ⊢
      rw [lookup_merge ours ht, hd, at?_nil]
  | cons name rest ih =>
      obtain ⟨outer, inner, hl, hg, hin⟩ := at?_cons_eq_some.1 hd
      have hlookup : (ours.merge theirs).lookup name =
          some (outer.joined (ours.lookup name)) := by
        rw [lookup_merge ours ht, hl]
      cases hm : (ours.lookup name).bind Definition.group with
      | none =>
          have hours : ours.at? ⟨name :: rest, leaf⟩ = none := by
            rw [at?_cons, hm]
            rfl
          rw [Definition.joined_of_no_group hm] at hlookup
          rw [at?_of_group hlookup hg, hin, hours, Definition.joined_of_no_group rfl]
      | some mine =>
          have hours : ours.at? ⟨name :: rest, leaf⟩ = mine.at? ⟨rest, leaf⟩ := by
            rw [at?_cons, hm]
            rfl
          rw [at?_of_group hlookup (Definition.group_joined hm hg), hours]
          exact ih (ht.inside (lookup_some hl).1 hg) hin

/-- Where the second schema spares a path, the merge has the definition of the first. -/
theorem at?_merge_of_spared (ht : theirs.Proper) (hs : theirs.Spares path) :
    (ours.merge theirs).at? path = ours.at? path := by
  obtain ⟨parents, leaf⟩ := path
  induction parents generalizing ours theirs with
  | nil => rw [at?_nil, at?_nil, lookup_merge ours ht, spares_nil.1 hs]
  | cons name rest ih =>
      rw [at?_cons, at?_cons, lookup_merge ours ht]
      cases hl : theirs.lookup name with
      | none => rfl
      | some d =>
          obtain ⟨inner, hg, hin⟩ := spares_cons.1 hs d hl
          simp only [Option.bind_some]
          cases hm : (ours.lookup name).bind Definition.group with
          | none =>
              rw [Definition.joined_of_no_group hm, hg]
              exact hin.1
          | some mine =>
              rw [Definition.group_joined hm hg]
              exact ih (ht.inside (lookup_some hl).1 hg) hin

/-- Nothing is left below a single setting of the second schema. -/
theorem at?_merge_of_covered (ht : theirs.Proper) {above : Path}
    (ha : above.segments <+: path.parents) (hs : theirs.HasSingle above) :
    (ours.merge theirs).at? path = none := by
  obtain ⟨d, hd, hg⟩ := hs
  have hmerged : (ours.merge theirs).at? above = some (d.joined (ours.at? above)) :=
    at?_merge_of_declared ht hd
  rw [Definition.joined_of_single hg] at hmerged
  exact HasSingle.at?_eq_none ⟨d, hmerged, hg⟩ ha

/-- A path is spared, or something is declared there, or it leads through a single setting. -/
theorem exists_single_above (hn : theirs.at? path = none) (hs : ¬theirs.Spares path) :
    ∃ above : Path, above.segments <+: path.parents ∧ theirs.HasSingle above := by
  by_contra hnot
  refine hs ⟨hn, fun above ha hsingle => hnot ⟨above, ha, hsingle⟩⟩

theorem at?_merge_of_single {d : Definition} (ht : theirs.Proper) (hg : d.group = none) :
    (ours.merge theirs).at? path = some d ↔
      theirs.at? path = some d ∨ ours.at? path = some d ∧ theirs.Spares path := by
  by_cases hs : theirs.Spares path
  · simp [at?_merge_of_spared ht hs, hs, hs.1]
  · cases he : theirs.at? path with
    | some e =>
        simp only [at?_merge_of_declared ht he, hs, and_false, or_false, Option.some.injEq]
        constructor
        · rintro rfl
          -- The joined definition is single, so it is the one that was joined.
          have hkind := Definition.isSome_group_joined (ours.at? path) e
          rw [hg, Option.isSome_none] at hkind
          exact (Definition.joined_of_single (Option.not_isSome_iff_eq_none.1 (by simp [← hkind]))
            _).symm
        · rintro rfl
          exact Definition.joined_of_single hg _
    | none =>
        obtain ⟨above, ha, hsingle⟩ := exists_single_above he hs
        simp [at?_merge_of_covered ht ha hsingle, hs]

theorem hasGroup_merge (ht : theirs.Proper) :
    (ours.merge theirs).HasGroup path ↔
      theirs.HasGroup path ∨ ours.HasGroup path ∧ theirs.Spares path := by
  by_cases hs : theirs.Spares path
  · simp [HasGroup, at?_merge_of_spared ht hs, hs, hs.1]
  · cases hd : theirs.at? path with
    | some d =>
        have hkind := Definition.isSome_group_joined (ours.at? path) d
        simp [HasGroup, at?_merge_of_declared ht hd, hd, hs, ← Option.isSome_iff_exists, hkind]
    | none =>
        obtain ⟨above, ha, hsingle⟩ := exists_single_above hd hs
        simp [HasGroup, at?_merge_of_covered ht ha hsingle, hd, hs]

/-- What a merge has at each path. A single setting of the merge is one of the second schema,
or one of the first at a path that the second spares, and it is the very same definition. A
group of the merge is a group of the second schema, or one of the first at a path that the
second spares. Where both have a group, the names of the first come first and keep their order. -/
theorem merge_at_every_path (ours : Schema) {theirs : Schema} (ht : theirs.Proper) :
    (∀ path d, d.group = none →
      ((ours.merge theirs).at? path = some d ↔
        theirs.at? path = some d ∨ ours.at? path = some d ∧ theirs.Spares path)) ∧
    (∀ path, (ours.merge theirs).HasGroup path ↔
      theirs.HasGroup path ∨ ours.HasGroup path ∧ theirs.Spares path) ∧
    ∀ walk mine inner, ours.descend walk = some mine → theirs.descend walk = some inner →
      ∃ merged, (ours.merge theirs).descend walk = some merged ∧
        merged.names = mine.names ++ inner.names.filter (· ∉ mine.names) := by
  refine ⟨fun path d hg => at?_merge_of_single ht hg, fun path => hasGroup_merge ht,
    fun walk mine inner hm hi => ?_⟩
  obtain ⟨hdescend, hinner⟩ := descend_merge ht hm hi
  exact ⟨_, hdescend, names_merge mine hinner⟩

def grouped : Schema where
  definitions := [⟨.declared 0 3, "g", none, .identity, false, some
    ⟨[⟨.declared 0 0, "x", none, .identity, false, none⟩,
      ⟨.declared 0 2, "h", none, .identity, false,
        some ⟨[⟨.declared 0 1, "u", none, .identity, false, none⟩], false⟩⟩], false⟩⟩]
  frozen := true

def flattened : Schema where
  definitions := [⟨.declared 1 2, "g", none, .identity, true, some
    ⟨[⟨.declared 1 0, "y", none, .identity, false, none⟩,
      ⟨.declared 1 1, "h", none, .identity, false, none⟩], false⟩⟩]
  frozen := false

theorem proper_flattened : flattened.Proper := by
  refine .intro _ (by decide) (fun _ _ => trivial) fun d hd inner hi => ?_
  obtain rfl := List.mem_singleton.1 hd
  obtain rfl := Option.some.inj hi
  refine .intro _ (by decide) (fun _ _ => trivial) fun e he t ht => ?_
  simp only [List.mem_cons, List.not_mem_nil, or_false] at he
  rcases he with rfl | rfl <;> cases ht

/-- In the merge `g.x` is the setting it was, `g.h` is no group any more, and `h` keeps its
place before `y`. -/
theorem merge_at_every_path_grouped_flattened :
    flattened.Proper ∧
      (∃ d, d.group = none ∧ grouped.at? ⟨["g"], "x"⟩ = some d ∧
        (grouped.merge flattened).at? ⟨["g"], "x"⟩ = some d) ∧
      (grouped.HasGroup ⟨["g"], "h"⟩ ∧ ¬(grouped.merge flattened).HasGroup ⟨["g"], "h"⟩) ∧
      ∃ merged, (grouped.merge flattened).descend ["g"] = some merged ∧
        merged.names = ["x", "h", "y"] := by
  obtain ⟨hsingle, hgroup, hnames⟩ := merge_at_every_path grouped proper_flattened
  have hspared : flattened.Spares ⟨["g"], "x"⟩ := by
    refine spares_cons.2 fun d hd => ?_
    obtain rfl := Option.some.inj hd
    exact ⟨_, rfl, spares_nil.2 rfl⟩
  refine ⟨proper_flattened, ⟨_, rfl, rfl, (hsingle _ _ rfl).2 (.inr ⟨rfl, hspared⟩)⟩,
    ⟨⟨_, _, rfl, rfl⟩, fun h => ?_⟩, ?_⟩
  · rcases (hgroup _).1 h with ⟨d, inner, hd, hg⟩ | ⟨_, hs⟩
    · obtain rfl := Option.some.inj hd
      cases hg
    · cases hs.1
  · obtain ⟨merged, hm, hn⟩ := hnames ["g"] _ _ rfl rfl
    exact ⟨merged, hm, hn.trans (by decide)⟩

end Schema
end SettingsTree
