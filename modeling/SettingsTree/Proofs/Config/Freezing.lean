import SettingsTree.Proofs.Stage.Commit
import SettingsTree.Schema.Registered

/-!
# When freezing holds

Along a history, freezing keeps its promises for as long as every rebinding goes to
a schema that the configuration admits: what is frozen is sealed, no edit changes a
frozen configuration, and finalizing ends with everything frozen. The first other
rebinding breaks them. It leaves a frozen configuration with a group that is open,
which finalizing again does not reach.
-/
namespace SettingsTree.Config

/-- A step rebinds only to a schema that is admitted; other steps are free. -/
def Step.Guarded (c : Config) : Step → Prop
  | .copy ⟨walk, .rebind s⟩ => ∀ inner, c.descend walk = .ok inner → inner.Admits s
  | _ => True

/-- Every rebinding in a history goes to a schema that is admitted at that moment. -/
def Guarded (c : Config) : List Step → Prop
  | [] => True
  | step :: rest => step.Guarded c ∧ (step.next c).Guarded rest

/-- A copy is a group as it is, or a duplicate, a rebinding or a commit of one. -/
theorem Copy.keeps {P : Config → Prop} {k : Copy} {c made : Config} (hk : k.apply c = .ok made)
    (inside : ∀ inner, c.descend k.walk = .ok inner → P inner)
    (duplicate : ∀ inner : Config, P inner → P inner.duplicate)
    (rebind : ∀ (inner : Config) s, P inner → k.making = .rebind s → P (inner.rebind s))
    (commit : ∀ inner requests, P inner →
      ((Stage.start inner).after requests).commit = .ok made → P made) : P made := by
  obtain ⟨walk, making⟩ := k
  unfold Copy.apply at hk
  split at hk
  · cases hk
  · next inner hd =>
      have hi := inside inner hd
      cases making with
      | exact => exact Except.ok.inj hk ▸ hi
      | duplicate => exact Except.ok.inj hk ▸ duplicate inner hi
      | rebind s => exact Except.ok.inj hk ▸ rebind inner s hi rfl
      | commit requests => exact commit inner requests hi hk

theorem ordered_copy {c made : Config} (k : Copy) (h : c.Ordered) (hk : k.apply c = .ok made) :
    made.Ordered := by
  refine Copy.keeps hk (fun _ hd => h.descend hd) (fun _ hi => hi.duplicate)
    (fun inner s _ _ => ordered_rebind inner s) fun inner requests hi hc => ?_
  obtain ⟨stage, rfl, hfits, hcommits⟩ := Stage.exists_commits hi hc
  exact hcommits.ordered hi hfits

theorem Step.ordered_next {c : Config} (h : c.Ordered) (step : Step) : (step.next c).Ordered := by
  cases step with
  | edit e => exact h.changes (changes_edit c e)
  | copy k =>
      rw [Step.next]
      split
      · next hk => exact ordered_copy k h hk
      · exact h

theorem ordered_after {c : Config} (h : c.Ordered) (history : List Step) :
    (c.after history).Ordered := by
  induction history generalizing c with
  | nil => exact h
  | cons step rest ih => exact ih (Step.ordered_next h step)

theorem Step.closed_next_iff {c : Config} (h : c.Closed) (ho : c.Ordered) (step : Step) :
    (step.next c).Closed ↔ step.Guarded c := by
  cases step with
  | edit e => exact iff_of_true (h.changes (changes_edit c e)) trivial
  | copy k =>
      obtain ⟨walk, making⟩ := k
      cases hd : c.descend walk with
      | error fault =>
          have hn : Step.next c (.copy ⟨walk, making⟩) = c := by simp [Step.next, Copy.apply, hd]
          rw [hn]
          cases making <;> simp [Step.Guarded, h, hd]
      | ok inner =>
          have hi := h.descend hd
          cases making with
          | exact =>
              have hn : Step.next c (.copy ⟨walk, .exact⟩) = inner := by
                simp [Step.next, Copy.apply, hd, Making.apply]
              rw [hn]
              exact iff_of_true hi trivial
          | duplicate =>
              have hn : Step.next c (.copy ⟨walk, .duplicate⟩) = inner.duplicate := by
                simp [Step.next, Copy.apply, hd, Making.apply]
              rw [hn]
              exact iff_of_true (open_duplicate inner).closed trivial
          | rebind s =>
              have hn : Step.next c (.copy ⟨walk, .rebind s⟩) = inner.rebind s := by
                simp [Step.next, Copy.apply, hd, Making.apply]
              rw [hn, closed_rebind_iff hi]
              simp [Step.Guarded, hd]
          | commit requests =>
              refine iff_of_true ?_ trivial
              simp only [Step.next, Copy.apply, hd, Making.apply]
              split
              · next made hk =>
                  exact (Stage.commits_after requests (ho.descend hd) hk).open.closed
              · exact h

/-- Every configuration that a history passes through is closed exactly if the
history is guarded. -/
theorem closed_along_iff {c : Config} (h : c.Closed) (ho : c.Ordered) (history : List Step) :
    (∀ past, past <+: history → (c.after past).Closed) ↔ c.Guarded history := by
  induction history generalizing c with
  | nil => simpa [Guarded] using h
  | cons step rest ih =>
      constructor
      · intro hall
        have hn : (step.next c).Closed := hall [step] (by simp)
        refine ⟨(Step.closed_next_iff h ho step).1 hn, ?_⟩
        refine (ih hn (Step.ordered_next ho step)).1 fun past hp => ?_
        exact hall (step :: past) ((List.prefix_cons_inj step).2 hp)
      · rintro ⟨hs, hr⟩ past hp
        have hn := (Step.closed_next_iff h ho step).2 hs
        rcases List.prefix_cons_iff.1 hp with rfl | ⟨later, rfl, hl⟩
        · exact h
        · exact (ih hn (Step.ordered_next ho step)).2 hr later hl

/-- What freezing promises of a configuration. -/
structure FreezingHolds (c : Config) : Prop where
  /-- With the configuration, every group inside is frozen. -/
  sealed : c.frozen = true → c.Sealed
  /-- No edit changes a frozen configuration, whatever its walk. -/
  unchanged : c.frozen = true → ∀ e : Edit, (e.apply c).state = c
  /-- Finalizing ends with everything frozen. -/
  finalized : c.finalize.Sealed

theorem freezingHolds_iff {c : Config} (ho : c.Ordered) : c.FreezingHolds ↔ c.Closed := by
  refine ⟨fun h => sealed_finalize_iff.1 h.finalized, fun h => ?_⟩
  refine ⟨h.sealed, fun hz e => ?_, sealed_finalize_iff.2 h⟩
  exact (h.sealed hz).changes_eq ho (changes_edit c e)

/-- Freezing keeps its promises all along a history exactly if every rebinding in it
goes to a schema that has no new group below what is frozen. -/
theorem freezing_holds_along_iff_guarded (s : Schema) (history : List Step) :
    (∀ past, past <+: history → ((fresh s).after past).FreezingHolds) ↔
      (fresh s).Guarded history := by
  rw [← closed_along_iff (open_fresh s).closed (ordered_fresh s) history]
  exact forall₂_congr fun past _ => freezingHolds_iff (ordered_after (ordered_fresh s) past)

def plain : Schema where
  definitions := [⟨.declared 0 0, "a", some (Registered.number 1), .identity, false, none⟩]
  frozen := false

/-- The settings of `plain`, and a group `g` with the setting `x`. -/
def extended : Schema where
  definitions := plain.definitions ++
    [⟨.declared 0 2, "g", none, .identity, false,
      some ⟨[⟨.declared 0 1, "x", some (Registered.number 1), .identity, false, none⟩], false⟩⟩]
  frozen := false

/-- A configuration that is frozen, rebound to a schema with a new group and frozen
again has an open group, in which a write goes through. -/
theorem rebinding_leaves_new_group_open :
    let c := (fresh plain).after
      [.edit ⟨[], .finalize⟩, .copy ⟨[], .rebind extended⟩, .edit ⟨[], .finalize⟩]
    let write : Edit := ⟨["g"], .set "x" (Registered.number 2)⟩
    c.frozen = true ∧ ¬c.Sealed ∧ ¬c.FreezingHolds ∧
      c.getAt ⟨["g"], "x"⟩ = .ok (Registered.number 1) ∧ (write.apply c).fault = none ∧
      (write.apply c).state.getAt ⟨["g"], "x"⟩ = .ok (Registered.number 2) := by
  have hg : Table.find? "g" (((fresh plain).finalize.rebind extended).finalize).groups =
      some (fresh ⟨[⟨.declared 0 1, "x", some (Registered.number 1), .identity, false, none⟩],
        false⟩) := rfl
  have hs : ¬(((fresh plain).finalize.rebind extended).finalize).Sealed := fun h =>
    absurd (h.inside hg).here (by simp)
  exact ⟨rfl, hs, fun h => hs (h.sealed rfl), rfl, rfl, rfl⟩

end SettingsTree.Config
