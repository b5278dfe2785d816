import SettingsTree.Proofs.Config.Ledger

/-!
# Ledgers of stages

What waits in a stage is what its journal recorded last at each path. Committing
therefore gives a configuration whose ledger is that of the target with the journal
of the stage recorded over it.
-/
namespace SettingsTree.Stage
open Config

/-- The ledger lists what waits in the stage, under the definitions of its target. -/
inductive Awaits : Ledger → Stage → Prop where
  | intro (l : Ledger) (s : Stage)
      (idle : ∀ name, l ⟨[], name⟩ = none → Table.find? name s.writes = none)
      (waiting : ∀ name stamp raw, l ⟨[], name⟩ = some (stamp, raw) →
        Table.find? name s.writes = some raw ∧
          ∃ d, s.target.schema.lookup name = some d ∧ d.group = none ∧ d.stamp = stamp)
      (elsewhere : ∀ name, Table.find? name s.scopes = none → l.below name = .empty)
      (inside : ∀ name inner, Table.find? name s.scopes = some inner →
        Awaits (l.below name) inner) : Awaits l s

namespace Awaits
variable {l : Ledger} {s s' inner : Stage} {name : String}

theorem idle (h : Awaits l s) (hl : l ⟨[], name⟩ = none) :
    Table.find? name s.writes = none := by
  cases h with
  | intro _ _ hi => exact hi name hl

theorem waiting (h : Awaits l s) {stamp : Stamp} {raw : Value}
    (hl : l ⟨[], name⟩ = some (stamp, raw)) :
    Table.find? name s.writes = some raw ∧
      ∃ d, s.target.schema.lookup name = some d ∧ d.group = none ∧ d.stamp = stamp := by
  cases h with
  | intro _ _ _ hw => exact hw name stamp raw hl

theorem elsewhere (h : Awaits l s) (hf : Table.find? name s.scopes = none) :
    l.below name = .empty := by
  cases h with
  | intro _ _ _ _ he => exact he name hf

theorem inside (h : Awaits l s) (hf : Table.find? name s.scopes = some inner) :
    Awaits (l.below name) inner := by
  cases h with
  | intro _ _ _ _ _ hi => exact hi name inner hf

end Awaits

theorem awaits_start (target : Config) : Awaits .empty (start target) :=
  .intro _ _ (fun _ _ => rfl) (fun _ _ _ hl => nomatch hl) (fun _ _ => rfl)
    fun _ _ hf => nomatch hf

theorem Awaits.scope {l : Ledger} {s inner : Stage} {name : String} (h : Awaits l s)
    (hs : s.scope name = .ok inner) : Awaits (l.below name) inner := by
  obtain ⟨group, _, hf | ⟨hf, rfl⟩⟩ := scope_eq_ok hs
  · exact h.inside hf
  · rw [h.elsewhere hf]
    exact awaits_start group

theorem Awaits.moves {l : Ledger} {s s' : Stage} {journal : List Entry} (h : Awaits l s)
    (m : Moves s s' journal) : Awaits (l.recordAll journal) s' := by
  induction m generalizing l with
  | refl => exact h
  | trans _ _ ih₁ ih₂ =>
      rw [Ledger.recordAll_append]
      exact ih₂ (ih₁ h)
  | @keep s d raw hl hg =>
      have hhere : ∀ name, l.record (d.entry raw) ⟨[], name⟩ =
          if name = d.name then some (d.stamp, raw) else l ⟨[], name⟩ := by
        intro name
        simp [Ledger.record, Definition.entry]
      refine .intro _ _ (fun name hn => ?_) (fun name stamp raw' hs => ?_) (fun name hn => ?_)
        fun name t ht => ?_
      · rw [Table.find?_insert]
        have hn' := (hhere name).symm.trans hn
        split_ifs at hn' ⊢
        exact h.idle hn'
      · rw [Table.find?_insert]
        have hs' := (hhere name).symm.trans hs
        split_ifs at hs' ⊢ with he
        · cases hs'
          exact ⟨rfl, d, he ▸ hl, hg, rfl⟩
        · exact h.waiting hs'
      · exact (Ledger.below_record_here rfl name).trans (h.elsewhere hn)
      · rw [show (l.recordAll [d.entry raw]).below name = l.below name from
          Ledger.below_record_here rfl name]
        exact h.inside ht
  | @enter s inner inner' name journal hs hm ih =>
      obtain ⟨hhere, hbelow⟩ := Ledger.recordAll_under (l := l) name journal
      refine .intro _ _ (fun other hn => ?_) (fun other stamp raw hw => ?_) (fun other hn => ?_)
        fun other t ht => ?_
      · rw [hhere] at hn
        exact h.idle hn
      · rw [hhere] at hw
        exact h.waiting hw
      · rw [withScope, Table.find?_insert] at hn
        split_ifs at hn with he
        rw [hbelow, if_neg he]
        exact h.elsewhere hn
      · rw [withScope, Table.find?_insert] at ht
        rw [hbelow]
        split_ifs at ht ⊢
        · exact Option.some.inj ht ▸ ih (h.scope hs)
        · exact h.inside ht

/-- A committed configuration has the ledger of the target under what was waiting. -/
theorem Commits.accounts {l m : Ledger} {s : Stage} {c : Config} (h : Commits s c) (hs : s.Fits)
    (ht : Accounts l s.target) (hm : Awaits m s) : Accounts (l.under m) c := by
  induction h generalizing l m with
  | intro s c schema _ _ _ written kept entered others _ ih =>
      have hbelow : ∀ name, (l.under m).below name = (l.below name).under (m.below name) :=
        fun _ => rfl
      refine .intro _ _ (fun name hn => ?_) (fun name stamp raw hw => ?_) (fun name hn => ?_)
        fun name t hg => ?_
      · obtain ⟨hmn, hln⟩ := Option.or_eq_none_iff.1 hn
        rw [kept name (hm.idle hmn)]
        exact ht.unassigned hln
      · cases hmn : m ⟨[], name⟩ with
        | none =>
            rw [kept name (hm.idle hmn), schema]
            refine ht.assigned ?_
            simpa [Ledger.under, hmn] using hw
        | some entry =>
            obtain rfl : entry = (stamp, raw) := by simpa [Ledger.under, hmn] using hw
            obtain ⟨hf, d, hl, hg, hstamp⟩ := hm.waiting hmn
            obtain ⟨d', v, hl', hv, hc⟩ := written name raw hf
            obtain rfl := Option.some.inj (hl.symm.trans hl')
            exact ⟨d, v, schema ▸ hl, hg, hstamp, hv, hc⟩
      · cases hf : Table.find? name s.scopes with
        | some inner =>
            obtain ⟨made, hmade⟩ := entered name inner hf
            rw [hn] at hmade
            cases hmade
        | none =>
            rw [others name hf, Option.map_eq_none_iff] at hn
            rw [hbelow, hm.elsewhere hf, ht.elsewhere hn]
            rfl
      · rw [hbelow]
        cases hf : Table.find? name s.scopes with
        | some inner =>
            have hn := (nested_eq_ok.1 (hs.there hf)).2
            exact ih name inner t hf hg (hs.inside hf) (ht.inside hn) (hm.inside hf)
        | none =>
            rw [others name hf] at hg
            obtain ⟨group, hgroup, rfl⟩ := Option.map_eq_some_iff.1 hg
            rw [hm.elsewhere hf]
            exact (ht.inside hgroup).duplicate

/-- What a stage commits to has the ledger of its target with the journal of the
stage recorded over it. -/
theorem accounts_commit {l : Ledger} {target c : Config} (requests : List Staging)
    (h : Accounts l target) (ho : target.Ordered)
    (hc : ((start target).after requests).commit = .ok c) :
    Accounts (l.recordAll ((start target).journal requests)) c := by
  have ht : Accounts l ((start target).after requests).target := by
    rw [target_after]
    exact h
  rw [Ledger.recordAll_eq_under]
  exact (commits_after requests ho hc).accounts (fits_after target requests) ht
    ((awaits_start target).moves (moves_after _ requests))

end SettingsTree.Stage
