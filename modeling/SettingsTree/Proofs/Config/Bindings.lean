import SettingsTree.Proofs.Config.WellFormed

/-!
# The schemas inside a configuration

A configuration is bound to a schema, and so is every group inside it, be it to the schema in its
definition or to another one that came in with it. Changing, copying or committing a configuration
binds nothing to a schema that was not there before. A fresh or rebound one is bound to the schemas
inside the one that it is made for, and to no others.
-/
namespace SettingsTree.Config

/-- All definitions in the schema of the configuration have the property, at every depth, and so
have those in the schemas of all groups inside. -/
inductive Binds (P : Definition → Prop) : Config → Prop where
  | intro (c : Config) (here : c.schema.All P)
      (inside : ∀ name inner, Table.find? name c.groups = some inner → Binds P inner) : Binds P c

variable {P Q : Definition → Prop} {c c' inner made other : Config} {s : Schema} {name : String}

namespace Binds

theorem here (h : c.Binds P) : c.schema.All P := by cases h; assumption

theorem inside (h : c.Binds P) (hf : Table.find? name c.groups = some inner) : inner.Binds P := by
  cases h with
  | intro _ _ hi => exact hi name inner hf

theorem mono (h : c.Binds P) (hPQ : ∀ d, P d → Q d) : c.Binds Q := by
  induction h with
  | intro c hs _ ih => exact .intro c (hs.mono hPQ) ih

theorem withGroup (h : c.Binds P) (hi : inner.Binds P) : (c.withGroup name inner).Binds P := by
  refine .intro _ h.here fun key t ht => ?_
  rw [Config.withGroup, Table.find?_insert] at ht
  split_ifs at ht
  · exact Option.some.inj ht ▸ hi
  · exact h.inside ht

theorem mapGroups {f : Config → Config} (here : c.schema.All P)
    (hf : ∀ name inner, Table.find? name c.groups = some inner → (f inner).Binds P)
    (schema : c'.schema = c.schema) (groups : c'.groups = Table.mapEntries f c.groups) :
    c'.Binds P := by
  refine .intro _ (schema ▸ here) fun name t ht => ?_
  rw [groups, Table.find?_mapEntries] at ht
  obtain ⟨inner, hi, rfl⟩ := Option.map_eq_some_iff.1 ht
  exact hf name inner hi

theorem duplicate (h : c.Binds P) : c.duplicate.Binds P := by
  induction h with
  | intro c hs _ ih => exact mapGroups hs ih (schema_duplicate c) (groups_duplicate c)

theorem finalize (h : c.Binds P) : c.finalize.Binds P := by
  induction h with
  | intro c hs hi ih =>
      cases hz : c.frozen with
      | true =>
          rw [finalize_of_frozen hz]
          exact .intro c hs hi
      | false => exact mapGroups hs ih (schema_finalize c) (groups_finalize hz)

theorem changes {journal : List Entry} (h : c.Binds P) (m : Changes c c' journal) :
    c'.Binds P := by
  induction m with
  | refl => exact h
  | trans _ _ ih₁ ih₂ => exact ih₂ (ih₁ h)
  | assign => exact .intro _ h.here fun _ _ => h.inside
  | inside hf _ ih => exact h.withGroup (ih (h.inside hf))
  | finalize => exact h.finalize

theorem descend {walk : List String} (h : c.Binds P) (hd : c.descend walk = .ok inner) :
    inner.Binds P :=
  descend_keeps (fun h hf => h.inside hf) h hd

theorem replace (walk : List String) (h : c.Binds P) (ho : other.Binds P) :
    (c.within walk fun _ => .done other).state.Binds P :=
  replace_keeps (fun h hf => h.inside hf) (fun h _ hi => h.withGroup hi) walk h ho

theorem commits {stage : Stage} (h : stage.Commits c) (hs : stage.Fits)
    (ht : stage.target.Binds P) : c.Binds P := by
  induction h with
  | intro stage c hschema _ _ _ _ _ _ others _ ih =>
      refine .intro c (hschema ▸ ht.here) fun name made hm => ?_
      cases hf : Table.find? name stage.scopes with
      | some inner =>
          have hn := (nested_eq_ok.1 (hs.there hf)).2
          exact ih name inner made hf hm (hs.inside hf) (ht.inside hn)
      | none =>
          rw [others name hf] at hm
          obtain ⟨group, hg, rfl⟩ := Option.map_eq_some_iff.1 hm
          exact (ht.inside hg).duplicate

end Binds

theorem binds_fresh (hs : s.All P) : (fresh s).Binds P := by
  induction s using Schema.inductionOn with
  | step s ih =>
      refine .intro _ (by rwa [schema_fresh]) fun name t ht => ?_
      rw [find?_groups_fresh] at ht
      obtain ⟨inner, hi, rfl⟩ := Option.map_eq_some_iff.1 ht
      exact ih name inner hi (hs.group hi)

/-- A rebound configuration has the schemas inside the new one, whatever it had before. -/
theorem binds_rebind (c : Config) (hs : s.All P) : (c.rebind s).Binds P := by
  induction c using inductionOn generalizing s with
  | step c ih =>
      refine .intro _ (by rwa [schema_rebind]) fun name t ht => ?_
      rw [find?_groups_rebind] at ht
      obtain ⟨inner, hi, rfl⟩ := Option.map_eq_some_iff.1 ht
      unfold rebindGroup
      split
      · next before hb => exact ih name before hb (hs.group hi)
      · exact binds_fresh (hs.group hi)

theorem Binds.copy {k : Copy} (h : c.Binds P) (ho : c.Ordered) (hk : k.apply c = .ok made)
    (hs : ∀ s, k.making = .rebind s → s.All P) : made.Binds P := by
  have hkept : made.Ordered ∧ made.Binds P := by
    refine Copy.keeps (P := fun c => c.Ordered ∧ c.Binds P) hk
      (fun _ hd => ⟨ho.descend hd, h.descend hd⟩) (fun _ hi => ⟨hi.1.duplicate, hi.2.duplicate⟩)
      (fun inner s _ hm => ⟨ordered_rebind inner s, binds_rebind inner (hs s hm)⟩)
      fun inner requests hi hc => ?_
    obtain ⟨stage, rfl, hfits, hcommits⟩ := Stage.exists_commits hi.1 hc
    exact ⟨hcommits.ordered hi.1 hfits, .commits hcommits hfits hi.2⟩
  exact hkept.2

end SettingsTree.Config
