import SettingsTree.Proofs.Config.Ordered

/-!
# Frozen marks at every depth

A configuration is sealed if it is frozen with every group inside, and open if
nothing in it is frozen. It is closed if whatever is frozen in it is sealed; this
is what freezing is meant to guarantee. Edits keep a configuration closed, and
finalizing it seals it exactly if it is closed.

Rebinding keeps the mark of a configuration but makes the groups that only the new
schema has from scratch, and these are open. So a closed configuration stays closed
exactly if, wherever it is frozen, it has a group for every group of the new schema;
`Config.Admits` says so.
-/
namespace SettingsTree.Config

inductive Marked (mark : Bool) : Config → Prop where
  | intro (c : Config) (here : c.frozen = mark)
      (inside : ∀ name inner, Table.find? name c.groups = some inner → Marked mark inner) :
      Marked mark c

abbrev Sealed (c : Config) : Prop := c.Marked true

abbrev Open (c : Config) : Prop := c.Marked false

/-- What is frozen is sealed, at every depth. -/
inductive Closed : Config → Prop where
  | intro (c : Config) (frozen : c.frozen = true → c.Sealed)
      (inside : ∀ name inner, Table.find? name c.groups = some inner → Closed inner) : Closed c

/-- Wherever the configuration is frozen, it has a group for every group of the schema. -/
inductive Admits : Config → Schema → Prop where
  | intro (c : Config) (s : Schema)
      (there : c.frozen = true → ∀ name inner, s.group? name = some inner →
        ∃ before, Table.find? name c.groups = some before)
      (inside : ∀ name inner before, s.group? name = some inner →
        Table.find? name c.groups = some before → Admits before inner) : Admits c s

section Marks
variable {mark : Bool} {c c' inner : Config} {s : Schema} {name : String}

theorem Marked.here (h : c.Marked mark) : c.frozen = mark := by cases h; assumption

theorem Marked.inside (h : c.Marked mark) (hf : Table.find? name c.groups = some inner) :
    inner.Marked mark := by
  cases h with
  | intro _ _ hi => exact hi name inner hf

theorem Marked.withGroup (h : c.Marked mark) (name : String) (hi : inner.Marked mark) :
    (c.withGroup name inner).Marked mark := by
  refine .intro _ h.here fun other t hf => ?_
  rw [Config.withGroup, Table.find?_insert] at hf
  split_ifs at hf
  · exact Option.some.inj hf ▸ hi
  · exact h.inside hf

theorem Closed.sealed (h : c.Closed) : c.frozen = true → c.Sealed := by cases h; assumption

theorem Closed.inside (h : c.Closed) (hf : Table.find? name c.groups = some inner) :
    inner.Closed := by
  cases h with
  | intro _ _ hi => exact hi name inner hf

theorem Closed.descend {walk : List String} (h : c.Closed) (hd : c.descend walk = .ok inner) :
    inner.Closed :=
  descend_keeps (fun h hf => h.inside hf) h hd

theorem Marked.closed (h : c.Marked mark) : c.Closed := by
  induction h with
  | intro c hm hi ih =>
      refine .intro c (fun hz => ?_) ih
      obtain rfl : mark = true := hm.symm.trans hz
      exact .intro c hm hi

theorem open_fresh (s : Schema) : (fresh s).Open := by
  induction s using Schema.inductionOn with
  | step s ih =>
      refine .intro _ (frozen_fresh s) fun name inner hf => ?_
      rw [find?_groups_fresh] at hf
      obtain ⟨t, ht, rfl⟩ := Option.map_eq_some_iff.1 hf
      exact ih name t ht

theorem open_duplicate (c : Config) : c.duplicate.Open := by
  induction c using inductionOn with
  | step c ih =>
      refine .intro _ (frozen_duplicate c) fun name t hf => ?_
      rw [find?_groups_duplicate] at hf
      obtain ⟨inner, hi, rfl⟩ := Option.map_eq_some_iff.1 hf
      exact ih name inner hi

/-- Finalizing seals a configuration exactly if it was closed. -/
theorem sealed_finalize_iff : c.finalize.Sealed ↔ c.Closed := by
  induction c using inductionOn with
  | step c ih =>
      cases hz : c.frozen with
      | true =>
          rw [finalize_of_frozen hz]
          exact ⟨Marked.closed, fun h => h.sealed hz⟩
      | false =>
          constructor
          · intro h
            refine .intro c (fun ht => ?_) fun name inner hf => (ih name inner hf).1 ?_
            · exact absurd (hz.symm.trans ht) (by simp)
            · have hi : Table.find? name c.finalize.groups = some inner.finalize := by
                rw [groups_finalize hz, Table.find?_mapEntries, hf]
                rfl
              exact h.inside hi
          · intro h
            refine .intro _ (frozen_finalize c) fun name t hf => ?_
            rw [groups_finalize hz, Table.find?_mapEntries] at hf
            obtain ⟨inner, hi, rfl⟩ := Option.map_eq_some_iff.1 hf
            exact (ih name inner hi).2 (h.inside hi)

theorem Marked.rebind (h : c.Sealed) (ha : c.Admits s) : (c.rebind s).Sealed := by
  induction ha with
  | intro c s there _ ih =>
      refine .intro _ ((frozen_rebind c s).trans h.here) fun name t hf => ?_
      rw [find?_groups_rebind] at hf
      obtain ⟨inner, hg, rfl⟩ := Option.map_eq_some_iff.1 hf
      obtain ⟨before, hb⟩ := there h.here name inner hg
      simp only [rebindGroup, hb]
      exact ih name inner before hg hb (h.inside hb)

theorem open_rebind (h : c.Open) (s : Schema) : (c.rebind s).Open := by
  induction c using inductionOn generalizing s with
  | step c ih =>
      refine .intro _ ((frozen_rebind c s).trans h.here) fun name t hf => ?_
      rw [find?_groups_rebind] at hf
      obtain ⟨inner, _, rfl⟩ := Option.map_eq_some_iff.1 hf
      unfold rebindGroup
      split
      · next before hb => exact ih name before hb (h.inside hb) inner
      · exact open_fresh inner

theorem admits_of_closed_rebind (h : (c.rebind s).Closed) : c.Admits s := by
  induction c using inductionOn generalizing s with
  | step c ih =>
      refine .intro c s (fun hz name inner hg => ?_) fun name inner before hg hb => ?_
      · cases hb : Table.find? name c.groups with
        | some before => exact ⟨before, rfl⟩
        | none =>
            have hs := h.sealed ((frozen_rebind c s).trans hz)
            have hn : Table.find? name (c.rebind s).groups = some (fresh inner) := by
              simp [hg, rebindGroup, hb]
            exact absurd (hs.inside hn).here (by simp)
      · have hn : Table.find? name (c.rebind s).groups = some (before.rebind inner) := by
          simp [hg, rebindGroup, hb]
        exact ih name before hb (h.inside hn)

/-- Rebinding keeps a configuration closed exactly if the schema is admitted. -/
theorem closed_rebind_iff (h : c.Closed) : (c.rebind s).Closed ↔ c.Admits s := by
  refine ⟨admits_of_closed_rebind, fun ha => ?_⟩
  induction ha with
  | intro c s there inside ih =>
      refine .intro _ (fun hz => ?_) fun name t hf => ?_
      · exact (h.sealed ((frozen_rebind c s).symm.trans hz)).rebind (.intro c s there inside)
      · rw [find?_groups_rebind] at hf
        obtain ⟨inner, hg, rfl⟩ := Option.map_eq_some_iff.1 hf
        unfold rebindGroup
        split
        · next before hb => exact ih name inner before hg hb (h.inside hb)
        · exact (open_fresh inner).closed

variable {journal : List Entry}

theorem Marked.changes (h : c.Sealed) (m : Changes c c' journal) : c'.Sealed := by
  induction m with
  | refl => exact h
  | trans _ _ ih₁ ih₂ => exact ih₂ (ih₁ h)
  | assign hz => exact absurd h.here (by simp [hz])
  | inside hf _ ih => exact h.withGroup _ (ih (h.inside hf))
  | finalize => exact sealed_finalize_iff.2 h.closed

theorem Closed.changes (h : c.Closed) (m : Changes c c' journal) : c'.Closed := by
  induction m with
  | refl => exact h
  | trans _ _ ih₁ ih₂ => exact ih₂ (ih₁ h)
  | @assign c d raw v hz _ _ _ =>
      refine .intro _ (fun ht => absurd (hz.symm.trans ht) (by simp)) fun _ _ => h.inside
  | @inside c inner inner' name _ hf hm ih =>
      refine .intro _ (fun hz => ?_) fun other t hg => ?_
      · exact (h.sealed hz).withGroup name (((h.sealed hz).inside hf).changes hm)
      · rw [withGroup, Table.find?_insert] at hg
        split_ifs at hg
        · exact Option.some.inj hg ▸ ih (h.inside hf)
        · exact h.inside hg
  | finalize => exact (sealed_finalize_iff.2 h).closed

theorem Marked.changes_eq (h : c.Sealed) (ho : c.Ordered) (m : Changes c c' journal) : c' = c := by
  induction m with
  | refl => rfl
  | trans _ _ ih₁ ih₂ =>
      obtain rfl := ih₁ h ho
      exact ih₂ h ho
  | assign hz => exact absurd h.here (by simp [hz])
  | inside hf _ ih =>
      obtain rfl := ih (h.inside hf) (ho.inside hf)
      exact ho.withGroup_self hf
  | finalize => exact finalize_of_frozen h.here

end Marks
end SettingsTree.Config
