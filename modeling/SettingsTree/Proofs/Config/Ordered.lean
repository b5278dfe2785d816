import SettingsTree.Proofs.Config.Changes

/-!
# Ascending tables at every depth

The tables of a configuration list their names in ascending order, in the
configuration and in every group inside. No call disturbs this. It makes two
configurations equal as soon as they answer every look-up alike, and it makes
putting back what stands under a name already no change at all.
-/
namespace SettingsTree.Config

/-- Values and groups are listed in ascending order of their names, at every depth. -/
inductive Ordered : Config → Prop where
  | intro (c : Config) (values : Table.Sorted c.values) (groups : Table.Sorted c.groups)
      (inside : ∀ name inner, Table.find? name c.groups = some inner → Ordered inner) :
      Ordered c

/-- Two configurations in ascending order agree as soon as their look-ups do. -/
theorem ext_of_sorted {c c' : Config} (schema : c.schema = c'.schema)
    (frozen : c.frozen = c'.frozen) (hv : Table.Sorted c.values) (hv' : Table.Sorted c'.values)
    (hg : Table.Sorted c.groups) (hg' : Table.Sorted c'.groups)
    (values : ∀ name, Table.find? name c.values = Table.find? name c'.values)
    (groups : ∀ name, Table.find? name c.groups = Table.find? name c'.groups) : c = c' := by
  have hvalues := hv.ext hv' values
  have hgroups := hg.ext hg' groups
  cases c
  cases c'
  simp only at schema frozen hvalues hgroups
  rw [schema, frozen, hvalues, hgroups]

namespace Ordered
variable {c c' inner : Config}

theorem values (h : c.Ordered) : Table.Sorted c.values := by cases h; assumption

theorem groups (h : c.Ordered) : Table.Sorted c.groups := by cases h; assumption

theorem inside (h : c.Ordered) {name : String} (hf : Table.find? name c.groups = some inner) :
    inner.Ordered := by
  cases h with
  | intro _ _ _ hi => exact hi name inner hf

theorem withValue (h : c.Ordered) (name : String) (v : Value) : (c.withValue name v).Ordered :=
  .intro _ (h.values.insert name v) h.groups fun _ _ => h.inside

theorem withGroup (h : c.Ordered) (name : String) (hi : inner.Ordered) :
    (c.withGroup name inner).Ordered := by
  refine .intro _ h.values (h.groups.insert name inner) fun other t hf => ?_
  rw [Config.withGroup, Table.find?_insert] at hf
  split_ifs at hf
  · exact Option.some.inj hf ▸ hi
  · exact h.inside hf

theorem withGroup_self (h : c.Ordered) {name : String}
    (hf : Table.find? name c.groups = some inner) : c.withGroup name inner = c := by
  cases c
  exact congrArg (Config.mk _ _ · _) (h.groups.insert_find? hf)

theorem descend {walk : List String} (h : c.Ordered) (hd : c.descend walk = .ok inner) :
    inner.Ordered :=
  descend_keeps (fun h hf => h.inside hf) h hd

theorem replace {other : Config} (walk : List String) (h : c.Ordered) (ho : other.Ordered) :
    (c.within walk fun _ => .done other).state.Ordered :=
  replace_keeps (fun h hf => h.inside hf) (fun h _ hi => h.withGroup _ hi) walk h ho

theorem duplicate (h : c.Ordered) : c.duplicate.Ordered := by
  induction h with
  | intro c hv hg _ ih =>
      refine .intro _ (by simpa using hv) ?_ fun name t hf => ?_
      · rw [groups_duplicate]
        exact hg.mapEntries _
      · rw [find?_groups_duplicate] at hf
        obtain ⟨inner, hi, rfl⟩ := Option.map_eq_some_iff.1 hf
        exact ih name inner hi

theorem finalize (h : c.Ordered) : c.finalize.Ordered := by
  induction h with
  | intro c hv hg hi ih =>
      cases hz : c.frozen with
      | true =>
          rw [finalize_of_frozen hz]
          exact .intro c hv hg hi
      | false =>
          refine .intro _ (by simpa using hv) ?_ fun name t hf => ?_
          · rw [groups_finalize hz]
            exact hg.mapEntries _
          · rw [groups_finalize hz, Table.find?_mapEntries] at hf
            obtain ⟨inner, hi, rfl⟩ := Option.map_eq_some_iff.1 hf
            exact ih name inner hi

theorem changes {journal : List Entry} (h : c.Ordered) (m : Changes c c' journal) : c'.Ordered := by
  induction m with
  | refl => exact h
  | trans _ _ ih₁ ih₂ => exact ih₂ (ih₁ h)
  | assign => exact h.withValue _ _
  | inside hf _ ih => exact h.withGroup _ (ih (h.inside hf))
  | finalize => exact h.finalize

end Ordered

theorem ordered_fresh (s : Schema) : (fresh s).Ordered := by
  induction s using Schema.inductionOn with
  | step s ih =>
      refine .intro _ (by simpa using Table.sorted_nil) ?_ fun name inner hf => ?_
      · rw [groups_fresh]
        exact sorted_freshGroups _
      · rw [find?_groups_fresh] at hf
        obtain ⟨t, ht, rfl⟩ := Option.map_eq_some_iff.1 hf
        exact ih name t ht

theorem ordered_rebind (c : Config) (s : Schema) : (c.rebind s).Ordered := by
  induction c using inductionOn generalizing s with
  | step c ih =>
      refine .intro _ ?_ ?_ fun name inner hf => ?_
      · rw [values_rebind]
        exact sorted_keptValues c _
      · cases s
        exact sorted_rebindGroups c _
      · rw [find?_groups_rebind] at hf
        obtain ⟨t, _, rfl⟩ := Option.map_eq_some_iff.1 hf
        unfold rebindGroup
        split
        · next before hb => exact ih name before hb t
        · exact ordered_fresh t

end SettingsTree.Config
