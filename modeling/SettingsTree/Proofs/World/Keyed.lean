import SettingsTree.Proofs.Schema.Growth
import SettingsTree.Proofs.World.Stamps

/-!
# Schemas as maps in order

Whatever a program does with schemas, every schema that can be had from it is a map from names to
definitions: each name is listed once, and is looked up where it is listed. In what order names
come, and which definition a name has, is said by the definitions that were brought in one after
the other. A table of positions that is kept along with the list agrees with it all the time. A
schema that is frozen stays what it is.
-/
namespace SettingsTree

namespace Schema

/-- A schema that can be looked into by names. -/
structure Keyed (s : Schema) : Prop where
  distinct : s.names.Nodup
  /-- A name is looked up as the one listed definition of the name. -/
  lookup_iff : ∀ name d,
    s.lookup name = some d ↔ s.definitions.filter (fun e => e.name = name) = [d]
  contains_iff : ∀ name, s.contains name = true ↔ name ∈ s.names
  size_eq : s.size = s.names.length

/-- The schema that is changed where it stands. All else makes a new one. -/
def Making.subject? : Making → Option Schema
  | script s _ | define s _ _ _ _ _ | incorporate s _ | exact s | freeze s => some s
  | merge _ _ | duplicate _ => none

variable {s : Schema} {d : Definition} {name : String}

theorem lookup_eq_some_iff (hs : s.names.Nodup) :
    s.lookup name = some d ↔ d ∈ s.definitions ∧ d.name = name :=
  ⟨lookup_some, fun ⟨hd, hn⟩ => hn ▸ Definition.find?_of_mem hs hd⟩

theorem keyed_of_nodup (hs : s.names.Nodup) : s.Keyed where
  distinct := hs
  lookup_iff name d := by
    have hnodup : (s.definitions.filter fun e => e.name = name).Nodup :=
      (List.Nodup.of_map Definition.name hs).filter _
    have hmem : ∀ e, e ∈ s.definitions.filter (fun e => e.name = name) ↔
        s.lookup name = some e := fun e => by simp [lookup_eq_some_iff hs]
    constructor
    · intro hd
      refine List.perm_singleton.1
        ((List.perm_ext_iff_of_nodup hnodup (List.nodup_singleton d)).2 fun e => ?_)
      rw [hmem, hd, List.mem_singleton]
      exact Option.some_inj.trans eq_comm
    · intro hone
      exact (hmem d).1 (hone ▸ List.mem_singleton_self d)
  contains_iff name := by
    rw [contains, Option.isSome_iff_ne_none, ne_eq, lookup, Definition.find?_eq_none_iff, not_not]
    rfl
  size_eq := List.length_map _ |>.symm

theorem Making.apply_of_frozen {making : Making} (hm : making.subject? = some s)
    (hz : s.frozen = true) (author : Nat) : making.apply author = s := by
  cases making with
  | script s statements =>
      cases hm
      have hrun : ((⟨s, { author }⟩ : Scope).run statements).state.schema = s :=
        Scope.schema_run_of_frozen hz statements
      exact hrun
  | define s fallback construct reader group =>
      cases hm
      rw [apply]
      split
      · rw [declare, if_pos hz]
        rfl
      · rfl
  | incorporate s other =>
      cases hm
      obtain ⟨definitions, frozen⟩ := s
      obtain ⟨theirs, mark⟩ := other
      cases hz
      cases theirs <;> rfl
  | exact s =>
      cases hm
      rfl
  | freeze s =>
      cases hm
      obtain ⟨definitions, frozen⟩ := s
      cases hz
      rfl
  | merge | duplicate => cases hm

end Schema

namespace World
variable {w : World} {s inner : Schema}

theorem Shows.descend {walk : List String} (h : w.Shows s) (hd : s.descend walk = some inner) :
    w.Shows inner := by
  induction walk generalizing s with
  | nil => exact Option.some.inj hd ▸ h
  | cons name rest ih =>
      obtain ⟨group, hgroup, hrest⟩ := Option.bind_eq_some_iff.1 hd
      obtain ⟨d, hl, hg⟩ := Option.bind_eq_some_iff.1 hgroup
      exact ih (.inside h (Schema.lookup_some hl).1 hg) hrest

/-- Every schema that can be had from a run is a map from names to definitions, at every depth,
and definitions can be brought into an empty schema so that it results. In a schema into which
definitions were brought one after the other the names come in the order in which they came
first, each has the definition that came last, and a table of positions that is kept along tells
the same. A frozen schema stays as it is. -/
theorem schemas_are_ordered_maps :
    (∀ ops s walk inner, empty.Drawn ops → (empty.after ops).Shows s →
      s.descend walk = some inner → inner.Keyed ∧ ∃ ds, Schema.GrownBy ds inner) ∧
    (∀ ds s, Schema.GrownBy ds s →
      s.names = (ds.map Definition.name).eraseDups ∧
        (∀ name, s.lookup name = (ds.filter fun d => d.name = name).getLast?) ∧
        (Listing.ofInsertions ds).definitions = s.definitions ∧
        ∀ name, (Listing.ofInsertions ds).lookup name = s.lookup name ∧
          (Listing.ofInsertions ds).contains name = s.contains name) ∧
    ∀ (making : Schema.Making) s author, making.subject? = some s → s.frozen = true →
      making.apply author = s := by
  refine ⟨fun ops s walk inner hops hs hd => ?_, fun ds s hgrown => ?_,
    fun making s author hm hz => Schema.Making.apply_of_frozen hm hz author⟩
  · obtain ⟨_, hstamped⟩ := stamped_empty.after hops
    have hnodup : inner.names.Nodup := (hstamped.shows (hs.descend hd)).distinct
    exact ⟨Schema.keyed_of_nodup hnodup, _, Schema.grownBy_definitions hnodup⟩
  · have hs := hgrown.definitions_eq
    obtain ⟨haligned, hlist⟩ := Listing.aligned_ofInsertions ds
    rw [← hs] at hlist
    refine ⟨?_, fun name => ?_, hlist, fun name => ⟨?_, ?_⟩⟩
    · rw [Schema.names, hs, Definition.names_insertAll]
    · rw [Schema.lookup, hs, Definition.find?_insertAll]
    · rw [haligned.lookup_eq, hlist]
      rfl
    · rw [haligned.contains_eq, hlist]
      rfl

/-- Names that come more than once, inside a group too. -/
def repeated : List Declaration :=
  [.setting "a" {}, .nested "g" {} [.setting "x" {}, .setting "y" {}, .setting "x" {}],
    .setting "b" {}, .setting "a" { reader := true }]

/-- What they declare, joined with a group of one of the names and then frozen. -/
def joined : List Op :=
  let first := Schema.Making.script .empty repeated
  let second := Schema.Making.script .empty [.nested "g" {} [.setting "z" {}, .setting "y" {}]]
  let merged := Schema.Making.merge (first.apply 0) (second.apply 1)
  [.schema first, .schema second, .schema merged, .schema (.freeze (merged.apply 2))]

theorem drawn_joined : empty.Drawn joined :=
  ⟨⟨.empty, trivial, ⟨trivial, trivial, trivial, trivial⟩, trivial, trivial, trivial⟩,
    ⟨.empty, ⟨trivial, trivial, trivial⟩, trivial⟩, ⟨.held (k := 0) rfl, .held (k := 1) rfl⟩,
    .held (k := 2) rfl, trivial⟩

/-- In the frozen schema and in its group each name is listed once, where it came first, and the
statements that made the first schema tell which definition a name has. -/
theorem keyed_joined :
    ∃ (first s inner : Schema) (ds : List Definition),
      (empty.Drawn joined ∧ (empty.after joined).held 3 = some (.schema s) ∧
        s.descend ["g"] = some inner ∧ inner.names = ["x", "y", "z"] ∧ inner.Keyed) ∧
      ((empty.after joined).held 0 = some (.schema first) ∧ Schema.GrownBy ds first ∧
        ds.map Definition.name = ["a", "g", "b", "a"] ∧ first.names = ["a", "g", "b"] ∧
        first.lookup "a" = ds.getLast? ∧
        (Listing.ofInsertions ds).positions = [("a", 0), ("b", 2), ("g", 1)]) ∧
      s.frozen = true ∧ (Schema.Making.script s repeated).apply 4 = s := by
  obtain ⟨hkeyed, hgrown, hfrozen⟩ := schemas_are_ordered_maps
  have hds : Schema.GrownBy _ ((Scope.start { author := 0 }).persist repeated).schema :=
    Schema.GrownBy.empty.persist repeated
  refine ⟨_, _, _, _, ⟨drawn_joined, rfl, rfl, rfl, ?_⟩,
    ⟨rfl, hds, rfl, (hgrown _ _ hds).1, (hgrown _ _ hds).2.1 "a", rfl⟩, rfl, hfrozen _ _ _ rfl rfl⟩
  exact (hkeyed joined _ ["g"] _ drawn_joined (.held (k := 3) rfl) rfl).1

end World
end SettingsTree
