import SettingsTree.Proofs.Config.Marks

/-!
# Configurations that differ in assigned values only

Writes change the assigned values and nothing else. Whether a write is refused, and with which
fault, does not depend on the assigned values. So what was written before makes no difference
to it.
-/
namespace SettingsTree.Config

/-- The configurations have the same schemas, marks and groups at every depth. -/
inductive Framed : Config → Config → Prop where
  | intro (c c' : Config) (schema : c.schema = c'.schema) (frozen : c.frozen = c'.frozen)
      (groups : ∀ name, (Table.find? name c.groups).isSome = (Table.find? name c'.groups).isSome)
      (inside : ∀ name inner inner', Table.find? name c.groups = some inner →
        Table.find? name c'.groups = some inner' → Framed inner inner') : Framed c c'

variable {c c' c'' inner inner' : Config} {name : String} {raw : Value} {mark : Bool}

namespace Framed

theorem schema (h : c.Framed c') : c.schema = c'.schema := by cases h; assumption

theorem frozen (h : c.Framed c') : c.frozen = c'.frozen := by cases h; assumption

theorem isSome_group (h : c.Framed c') (name : String) :
    (Table.find? name c.groups).isSome = (Table.find? name c'.groups).isSome := by
  cases h with
  | intro _ _ _ _ hg => exact hg name

theorem inside (h : c.Framed c') (hf : Table.find? name c.groups = some inner)
    (hf' : Table.find? name c'.groups = some inner') : inner.Framed inner' := by
  cases h with
  | intro _ _ _ _ _ hi => exact hi name inner inner' hf hf'

theorem group (h : c.Framed c') (hf : Table.find? name c.groups = some inner) :
    ∃ inner', Table.find? name c'.groups = some inner' ∧ inner.Framed inner' := by
  have hsome := h.isSome_group name
  rw [hf] at hsome
  obtain ⟨inner', hf'⟩ := Option.isSome_iff_exists.1 hsome.symm
  exact ⟨inner', hf', h.inside hf hf'⟩

theorem refl (c : Config) : c.Framed c := by
  induction c using inductionOn with
  | step c ih =>
      refine .intro c c rfl rfl (fun _ => rfl) fun name inner inner' hf hf' => ?_
      obtain rfl := Option.some.inj (hf.symm.trans hf')
      exact ih name inner hf

theorem symm (h : c.Framed c') : c'.Framed c := by
  induction h with
  | intro c c' hs hz hg _ ih =>
      exact .intro c' c hs.symm hz.symm (fun name => (hg name).symm) fun name inner inner' hf hf' =>
        ih name inner' inner hf' hf

theorem trans (h : c.Framed c') (h' : c'.Framed c'') : c.Framed c'' := by
  induction h generalizing c'' with
  | intro c c' hs hz hg hi ih =>
      refine .intro c c'' (hs.trans h'.schema) (hz.trans h'.frozen)
        (fun name => (hg name).trans (h'.isSome_group name)) fun name inner inner'' hf hf'' => ?_
      obtain ⟨inner', hf', _⟩ := (Framed.intro c c' hs hz hg hi).group hf
      exact ih name inner inner' hf hf' (h'.inside hf' hf'')

theorem withGroup (hf : Table.find? name c.groups = some inner) (h : inner.Framed inner') :
    c.Framed (c.withGroup name inner') := by
  refine .intro c _ rfl rfl (fun other => ?_) fun other t t' ht ht' => ?_
  · rw [Config.withGroup, Table.find?_insert]
    split_ifs with he
    · rw [he, hf]
      rfl
    · rfl
  · rw [Config.withGroup, Table.find?_insert] at ht'
    split_ifs at ht' with he
    · subst he
      obtain rfl := Option.some.inj (hf.symm.trans ht)
      exact Option.some.inj ht' ▸ h
    · obtain rfl := Option.some.inj (ht.symm.trans ht')
      exact .refl t

theorem assign (c : Config) (d : Definition) (raw : Value) : c.Framed (c.assign d raw).state := by
  unfold Config.assign
  cases d.resolve (some raw) with
  | error fault => exact .refl c
  | ok v =>
      refine .intro _ _ rfl rfl (fun _ => rfl) fun other t t' ht ht' => ?_
      obtain rfl := Option.some.inj (ht.symm.trans ht')
      exact .refl t

theorem andThen {a : Attempt Config} {next : Config → Attempt Config} (h : c.Framed a.state)
    (hn : a.state.Framed (next a.state).state) : c.Framed (a.andThen next).state := by
  unfold Attempt.andThen
  cases a.fault with
  | none => exact h.trans hn
  | some fault => exact h

end Framed

theorem Marked.framed (h : c.Marked mark) (hc : c.Framed c') : c'.Marked mark := by
  induction hc with
  | intro c c' hs hz hg hi ih =>
      refine .intro c' (hz.symm.trans h.here) fun name inner' hf' => ?_
      obtain ⟨inner, hf, _⟩ := (Framed.intro c c' hs hz hg hi).symm.group hf'
      exact ih name inner inner' hf hf' (h.inside hf)

theorem framed_set_of_not_map (c : Config) (name : String)
    (h : ∀ entries, raw ≠ .map entries) : c.Framed (c.set name raw).state := by
  rw [set_of_not_map c name h]
  cases c.target name with
  | error fault => exact .refl c
  | ok target =>
      cases target with
      | setting d => exact .assign c d raw
      | group inner => exact .refl c

mutual

theorem framed_set : ∀ (c : Config) (name : String) (raw : Value),
    c.Framed (c.set name raw).state
  | c, name, .map entries => by
      rw [set]
      cases ht : c.target name with
      | error fault => exact .refl c
      | ok target =>
          cases target with
          | setting d => exact .assign c d _
          | group inner =>
              cases hk : strayKey? entries with
              | some key => exact .refl c
              | none => exact .withGroup (find?_of_target ht) (framed_setAll inner entries)
  | c, name, .bool _ | c, name, .int _ | c, name, .float _ | c, name, .char _
  | c, name, .str _ | c, name, .unit | c, name, .nothing | c, name, .just _
  | c, name, .newtype _ | c, name, .seq _ | c, name, .bytes _ =>
      framed_set_of_not_map c name fun _ h => nomatch h

theorem framed_setAll : ∀ (c : Config) (entries : List (Value × Value)),
    c.Framed (c.setAll entries).state
  | c, [] => .refl c
  | c, (key, raw) :: rest => by
      by_cases hk : ∃ name, key = .str name
      · obtain ⟨name, rfl⟩ := hk
        rw [setAll]
        exact (framed_set c name raw).andThen (framed_setAll _ rest)
      · rw [setAll.eq_3 c key raw rest fun name he => hk ⟨name, he⟩]
        exact .refl c

end

theorem framed_update (c : Config) (batch : Value) : c.Framed (c.update batch).state := by
  cases batch with
  | map entries =>
      rw [update]
      cases strayKey? entries with
      | some key => exact .refl c
      | none => exact framed_setAll c entries
  | bool | int | float | char | str | unit | nothing | just | newtype | seq | bytes =>
      exact .refl c

namespace Framed

/-- Writes under a name go to the same in both, or nowhere in both. -/
theorem target (h : c.Framed c') (name : String) :
    (∃ fault, c.target name = .error fault ∧ c'.target name = .error fault) ∨
      (∃ d, c.target name = .ok (.setting d) ∧ c'.target name = .ok (.setting d)) ∨
      ∃ inner inner', c.target name = .ok (.group inner) ∧
        c'.target name = .ok (.group inner') ∧ inner.Framed inner' := by
  rw [Config.target, Config.target, definition, definition, ← h.schema, ← h.frozen]
  cases hz : c.frozen with
  | true => exact .inl ⟨_, rfl, rfl⟩
  | false =>
      cases hl : c.schema.lookup name with
      | none => exact .inl ⟨_, rfl, rfl⟩
      | some d =>
          cases hg : d.isGroup with
          | false => exact .inr (.inl ⟨d, by simp [hg], by simp [hg]⟩)
          | true =>
              cases hf : Table.find? name c.groups with
              | some inner =>
                  obtain ⟨inner', hf', hi⟩ := h.group hf
                  exact .inr (.inr ⟨inner, inner', by simp [hg], by simp [hg, hf'], hi⟩)
              | none =>
                  have hnone : Table.find? name c'.groups = none := by
                    simpa [hf] using h.isSome_group name
                  exact .inl ⟨.notNested name, by simp [hg], by simp [hg, hnone]⟩

theorem fault_assign (c c' : Config) (d : Definition) (raw : Value) :
    (c.assign d raw).fault = (c'.assign d raw).fault := by
  unfold Config.assign
  cases d.resolve (some raw) <;> rfl

theorem fault_set_of_not_map (h : c.Framed c') (name : String)
    (hraw : ∀ entries, raw ≠ .map entries) :
    (c.set name raw).fault = (c'.set name raw).fault := by
  rw [set_of_not_map c name hraw, set_of_not_map c' name hraw]
  rcases h.target name with ⟨fault, ht, ht'⟩ | ⟨d, ht, ht'⟩ | ⟨inner, inner', ht, ht', _⟩ <;>
    rw [ht, ht']
  · rfl
  · exact fault_assign c c' d raw
  · rfl

mutual

theorem fault_set : ∀ (raw : Value) {c c' : Config} (_ : c.Framed c') (name : String),
    (c.set name raw).fault = (c'.set name raw).fault
  | .map entries, c, c', h, name => by
      rw [set, set]
      rcases h.target name with ⟨fault, ht, ht'⟩ | ⟨d, ht, ht'⟩ | ⟨inner, inner', ht, ht', hi⟩ <;>
        rw [ht, ht']
      · rfl
      · exact fault_assign c c' d _
      · cases hk : strayKey? entries with
        | some key => rfl
        | none => exact fault_setAll entries hi
  | .bool _, _, _, h, name | .int _, _, _, h, name | .float _, _, _, h, name
  | .char _, _, _, h, name | .str _, _, _, h, name | .unit, _, _, h, name
  | .nothing, _, _, h, name | .just _, _, _, h, name | .newtype _, _, _, h, name
  | .seq _, _, _, h, name | .bytes _, _, _, h, name =>
      fault_set_of_not_map h name fun _ he => nomatch he

theorem fault_setAll : ∀ (entries : List (Value × Value)) {c c' : Config} (_ : c.Framed c'),
    (c.setAll entries).fault = (c'.setAll entries).fault
  | [], _, _, _ => rfl
  | (key, raw) :: rest, c, c', h => by
      by_cases hk : ∃ name, key = .str name
      · obtain ⟨name, rfl⟩ := hk
        have hfirst := fault_set raw h name
        -- Whatever the first entry has done, it has left both in the same frame.
        have hafter : (c.set name raw).state.Framed (c'.set name raw).state :=
          (framed_set c name raw).symm.trans (h.trans (framed_set c' name raw))
        rw [setAll, setAll]
        cases hc : (c.set name raw).fault with
        | none =>
            rw [Attempt.andThen_of_fault_eq_none hc,
              Attempt.andThen_of_fault_eq_none (hfirst.symm.trans hc)]
            exact fault_setAll rest hafter
        | some fault =>
            rw [Attempt.andThen_of_fault_eq_some hc,
              Attempt.andThen_of_fault_eq_some (hfirst.symm.trans hc)]
            exact hfirst
      · rw [setAll.eq_3 c key raw rest fun name he => hk ⟨name, he⟩,
          setAll.eq_3 c' key raw rest fun name he => hk ⟨name, he⟩]
        rfl

end

theorem fault_update (h : c.Framed c') (batch : Value) :
    (c.update batch).fault = (c'.update batch).fault := by
  cases batch with
  | map entries =>
      rw [update, update]
      cases strayKey? entries with
      | some key => rfl
      | none => exact fault_setAll entries h
  | bool | int | float | char | str | unit | nothing | just | newtype | seq | bytes => rfl

end Framed

theorem fault_update_update (c : Config) (first second : Value) :
    ((c.update first).state.update second).fault = (c.update second).fault :=
  (framed_update c first).symm.fault_update second

end SettingsTree.Config
