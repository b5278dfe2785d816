import SettingsTree.Proofs.Renaming.World

/-!
# Operations that can be left out

In a run that draws on nothing but itself no number is in use that is still to be given out. An
operation that changes nothing can therefore be left out of it: if the objects that are made
later get the numbers that come one earlier, the later operations lead to the same objects and
are answered alike.
-/
namespace SettingsTree

/-- No number from the bound on is in the object: renaming these changes nothing. -/
def Object.Within (bound : Nat) (x : Object) : Prop :=
  ∀ σ : Nat → Nat, σ.Injective → (∀ j < bound, σ j = j) → x.rename σ = x

namespace World

theorem lt_of_held {w : World} {bound k : Nat} {x : Object}
    (h : ∀ j, bound ≤ j → w.held j = none) (hk : w.held k = some x) : k < bound := by
  by_contra hle
  rw [h k (Nat.le_of_not_lt hle)] at hk
  cases hk

/-- No number that is still to be given out is in use. -/
structure Contained (w : World) : Prop where
  later : ∀ k, w.clock ≤ k → w.held k = none
  within : ∀ k x, w.held k = some x → x.Within w.clock

namespace Contained
variable {w : World} {σ : Nat → Nat}

theorem lt_clock (h : w.Contained) {k : Nat} {x : Object} (hk : w.held k = some x) :
    k < w.clock := lt_of_held h.later hk

section Kept
variable (h : w.Contained) (hσ : σ.Injective) (hkeep : ∀ j < w.clock, σ j = j)
include h hσ hkeep

theorem held_rename (k : Nat) : w.held (σ k) = w.held k := by
  by_cases hk : k < w.clock
  · rw [hkeep k hk]
  · have hk' : ¬σ k < w.clock := fun hlt => hk (hσ (hkeep (σ k) hlt) ▸ hlt)
    rw [h.later k (Nat.le_of_not_lt hk), h.later (σ k) (Nat.le_of_not_lt hk')]

theorem renumbered : Renumbered σ w w := by
  intro k
  rw [h.held_rename hσ hkeep k]
  cases hk : w.held k with
  | none => rfl
  | some x => exact congrArg some (h.within k x hk σ hσ hkeep).symm

theorem config_rename {k : Nat} {x : Object} {c inner : Config} {walk : List String}
    (hk : w.held k = some x) (hc : x.config? = some c) (hd : c.descend walk = .ok inner) :
    inner.rename σ = inner := by
  have hread : x.config?.map (Config.rename σ) = x.config? := by
    rw [← Object.config?_rename hσ, h.within k x hk σ hσ hkeep]
  rw [hc, Option.map_some] at hread
  have hwalk := Config.descend_rename σ c walk
  rw [Option.some.inj hread, hd] at hwalk
  exact (Except.ok.inj hwalk).symm

theorem shows_rename {s : Schema} (hs : w.Shows s) : s.rename σ = s := by
  induction hs with
  | empty => rfl
  | held hk => exact Object.schema.inj (h.within _ _ hk σ hσ hkeep)
  | owner hk => exact congrArg Owner.schema (Object.owner.inj (h.within _ _ hk σ hσ hkeep))
  | config hk hc hd =>
      rw [← Config.schema_rename, h.config_rename hσ hkeep hk hc hd]
  | @inside s t d _ hlisted hgroup ih =>
      have hds : s.definitions.map (Definition.rename σ) = s.definitions.map id := by
        rw [← Schema.definitions_rename, ih, List.map_id]
      have hd : d.rename σ = d := List.map_inj_left.1 hds d hlisted
      have hg := congrArg Definition.group hd
      rw [Definition.group_rename, hgroup] at hg
      exact Option.some.inj hg

/-- An operation that draws on the world has no number in it that is still to be given out,
unless it is one that no object bears. -/
theorem step_rename {op : Op} (hop : op.Drawn w) : w.step (op.rename σ) = w.step op := by
  have hheld := h.held_rename hσ hkeep
  have hnumber : ∀ k x, w.held k = some x → σ k = k := fun k x hk => hkeep k (h.lt_clock hk)
  cases op with
  | schema making =>
      have hmaking : making.From w.Shows := hop
      rw [Op.rename, Schema.Making.rename_eq_self
        (hmaking.mono fun _ => h.shows_rename hσ hkeep)]
  | bind s => rw [Op.rename, h.shows_rename hσ hkeep hop]
  | found name => rfl
  | derive parent name => simp only [Op.rename, World.step, derived?, hheld]
  | spawn k =>
      simp only [Op.rename, World.step, hheld]
      cases hk : w.held k with
      | none => rfl
      | some x => rw [hnumber k x hk]
  | copy k copy =>
      obtain ⟨walk, making⟩ := copy
      have hcopy : Config.Copy.rename σ ⟨walk, making⟩ = ⟨walk, making⟩ := by
        cases making with
        | rebind s => rw [Config.Copy.rename, Config.Making.rename, h.shows_rename hσ hkeep hop]
        | exact | duplicate | commit => rfl
      simp only [Op.rename, World.step, hheld, hcopy]
      cases hk : w.held k with
      | none => rfl
      | some x => rw [hnumber k x hk]
  | act k a =>
      simp only [Op.rename, World.step, hheld]
      cases hk : w.held k with
      | none => rfl
      | some x =>
          have hact : x.act (a.rename σ) = x.act a := by
            refine Object.act_of_rename ?_ ?_ x
            · rintro d rfl
              exact Declaration.rename_eq_self
                (Scope.TakesIn.mono (fun _ => h.shows_rename hσ hkeep) hop)
            · rintro walk other rfl
              obtain ⟨j, y, outer, down, hj, hy, hd⟩ : w.Reads other := hop
              exact h.config_rename hσ hkeep hj hy hd
          simp only [hact, hnumber k x hk]

end Kept

/-- The invariant is the simulation of the world by itself: a renaming that keeps all numbers
up to the new one leads from the world to itself, and so it does after the operation. -/
theorem step (h : w.Contained) {op : Op} (hop : op.Drawn w) : (w.step op).Contained := by
  have hlater : ∀ k, w.clock + 1 ≤ k → (w.step op).held k = none := by
    intro k hk
    rw [held_step w op (by omega), h.later k (by omega)]
    cases op.call? with
    | none => rfl
    | some called => exact ite_self _
  refine ⟨by rwa [clock_step], fun k x hk σ hσ hkeep => ?_⟩
  rw [clock_step] at hkeep
  have hbefore : ∀ j < w.clock, σ j = j := fun j hj => hkeep j (Nat.lt_succ_of_lt hj)
  have hclock : w.clock = σ w.clock := (hkeep w.clock (Nat.lt_succ_self _)).symm
  have hsame := (h.renumbered hσ hbefore).step hσ hclock op k
  rw [h.step_rename hσ hbefore hop, hkeep k (lt_of_held hlater hk), hk] at hsame
  exact (Option.some.inj hsame).symm

theorem after (h : w.Contained) {ops : List Op} (hops : w.Drawn ops) :
    (w.after ops).Contained := by
  induction ops generalizing w with
  | nil => exact h
  | cons op rest ih => exact ih (h.step hops.1) hops.2

end Contained

theorem contained_empty : empty.Contained :=
  ⟨fun _ _ => rfl, fun _ _ hk => nomatch hk⟩

theorem step_act_of_idle {w : World} {k : Nat} {x : Object} {a : Act} (hk : w.held k = some x)
    (hx : (x.act a).state = x) : w.step (.act k a) = w.tick none := by
  have hput : w.put k x = w := by
    refine congrArg (World.mk · w.clock) (funext fun j => ?_)
    split_ifs with he
    · rw [he, hk]
    · rfl
  simp only [step, hk, hx, hput]

/-- The numbers of objects after one more operation at the given time. -/
def shifted (time k : Nat) : Nat :=
  if k < time then k else k + 1

theorem shifted_injective (time : Nat) : (shifted time).Injective := by
  intro a b hab
  unfold shifted at hab
  split_ifs at hab <;> omega

/-- An operation that leaves all objects as they are and makes none can be left out: with the
later objects renumbered, the later operations lead to the same objects and answers. -/
theorem Contained.after_idle {w : World} (h : w.Contained) {op : Op}
    (hidle : w.step op = w.tick none) (later : List Op) :
    let σ := shifted w.clock
    Renumbered σ (w.after later) ((w.step op).after (later.map (Op.rename σ))) ∧
      ∀ k, (w.step op).answersTo (σ k) (later.map (Op.rename σ)) = w.answersTo k later := by
  intro σ
  have hσ : σ.Injective := shifted_injective w.clock
  have hkeep : ∀ j < w.clock, σ j = j := fun j hj => if_pos hj
  have hrest : ∀ k, w.clock ≤ k → σ k = k + 1 := fun k hk => if_neg (Nat.not_lt.2 hk)
  have hstart : Renumbered σ w (w.step op) := by
    intro k
    have hne : σ k ≠ w.clock := by
      by_cases hk : k < w.clock
      · rw [hkeep k hk]
        omega
      · rw [hrest k (Nat.le_of_not_lt hk)]
        omega
    rw [hidle, held_tick_of_ne hne]
    exact h.renumbered hσ hkeep k
  refine hstart.after hσ (fun n => ?_) later
  rw [hrest _ (Nat.le_add_right ..), clock_step, Nat.add_right_comm]

end World
end SettingsTree
