import SettingsTree.Proofs.Config.Changes

/-!
# What staging can change

A request on a stage stores raw values under the names of single settings and
enters the scopes of groups, and does nothing else; in particular no target ever
changes. Hence a stage that was built by requests fits its target: a raw value
waits only under the name of a single setting, and the target of an entered scope
is the group of that name.
-/
namespace SettingsTree.Stage

/-- The moves that requests on a stage are made of, with their journals. -/
inductive Moves : Stage → Stage → List Entry → Prop where
  | refl (s : Stage) : Moves s s []
  | trans {a b c : Stage} {first second : List Entry} : Moves a b first → Moves b c second →
      Moves a c (first ++ second)
  | keep {s : Stage} {d : Definition} (raw : Value)
      (known : s.target.schema.lookup d.name = some d) (single : d.group = none) :
      Moves s { s with writes := Table.insert d.name raw s.writes } [d.entry raw]
  | enter {s inner inner' : Stage} {name : String} {journal : List Entry}
      (there : s.scope name = .ok inner) (move : Moves inner inner' journal) :
      Moves s (s.withScope name inner') (journal.map (Entry.under name))

theorem Moves.target {s s' : Stage} {journal : List Entry} (h : Moves s s' journal) :
    s'.target = s.target := by
  induction h with
  | refl => rfl
  | trans _ _ ih₁ ih₂ => exact ih₂.trans ih₁
  | keep => rfl
  | enter => rfl

theorem Moves.andThen {s : Stage} {a : Attempt Stage} {next : Stage → Attempt Stage}
    {first : List Entry} {second : Stage → List Entry} (h : Moves s a.state first)
    (hn : ∀ t, Moves t (next t).state (second t)) :
    Moves s (a.andThen next).state (a.followed first second) := by
  unfold Attempt.andThen Attempt.followed
  cases a.fault with
  | none => exact h.trans (hn a.state)
  | some fault => exact h.trans (.refl _)

theorem set_of_not_map (s : Stage) (name : String) {raw : Value}
    (h : ∀ entries, raw ≠ .map entries) :
    s.set name raw =
      match s.target.definition name with
      | .error fault => .failed s fault
      | .ok d =>
          if d.isGroup then .failed s (.mapExpected name)
          else .done { s with writes := Table.insert name raw s.writes } :=
  set.eq_2 s name raw h

theorem moves_keep {s : Stage} {name : String} {d : Definition} (raw : Value)
    (hl : s.target.schema.lookup name = some d) (hg : d.group = none) :
    Moves s { s with writes := Table.insert name raw s.writes } [d.entry raw] := by
  obtain rfl := (Schema.lookup_some hl).2
  exact .keep raw hl hg

theorem single_of_not_group {s : Stage} {name : String} {d : Definition}
    (hd : s.target.definition name = .ok d) (hg : ¬d.isGroup = true) :
    s.target.schema.lookup name = some d ∧ d.group = none :=
  ⟨Config.definition_eq_ok.1 hd, by simpa [Definition.isGroup] using hg⟩

theorem moves_set_of_not_map (s : Stage) (name : String) {raw : Value}
    (h : ∀ entries, raw ≠ .map entries) : Moves s (s.set name raw).state (s.kept name raw) := by
  rw [set_of_not_map s name h, kept.eq_2 s name raw h]
  cases hd : s.target.definition name with
  | error fault => exact .refl s
  | ok d =>
      by_cases hg : d.isGroup = true
      · simp only [if_pos hg]
        exact .refl s
      · simp only [if_neg hg]
        obtain ⟨hl, hs⟩ := single_of_not_group hd hg
        exact moves_keep raw hl hs

mutual

theorem moves_set : ∀ (s : Stage) (name : String) (raw : Value),
    Moves s (s.set name raw).state (s.kept name raw)
  | s, name, .map entries => by
      rw [set, kept]
      cases hd : s.target.definition name with
      | error fault => exact .refl s
      | ok d =>
          by_cases hg : d.isGroup = true
          · simp only [if_pos hg]
            cases hs : s.scope name with
            | error fault => exact .refl s
            | ok inner =>
                cases hk : Config.strayKey? entries with
                | some key => exact .enter hs (.refl inner)
                | none => exact .enter hs (moves_setAll inner entries)
          · simp only [if_neg hg]
            obtain ⟨hl, hs⟩ := single_of_not_group hd hg
            exact moves_keep _ hl hs
  | s, name, .bool _ | s, name, .int _ | s, name, .float _ | s, name, .char _
  | s, name, .str _ | s, name, .unit | s, name, .nothing | s, name, .just _
  | s, name, .newtype _ | s, name, .seq _ | s, name, .bytes _ =>
      moves_set_of_not_map s name fun _ h => nomatch h

theorem moves_setAll : ∀ (s : Stage) (entries : List (Value × Value)),
    Moves s (s.setAll entries).state (s.keptAll entries)
  | s, [] => .refl s
  | s, (key, raw) :: rest => by
      by_cases hk : ∃ name, key = .str name
      · obtain ⟨name, rfl⟩ := hk
        rw [setAll, keptAll]
        exact (moves_set s name raw).andThen fun t => moves_setAll t rest
      · have hne : ∀ name, key = .str name → False := fun name he => hk ⟨name, he⟩
        rw [setAll.eq_3 s key raw rest hne, keptAll.eq_3 s key raw rest hne]
        exact .refl s

end

theorem moves_update (s : Stage) (batch : Value) :
    Moves s (s.update batch).state (s.keptBatch batch) := by
  cases batch with
  | map entries =>
      simp only [update, keptBatch]
      cases Config.strayKey? entries with
      | some key => exact .refl s
      | none => exact moves_setAll s entries
  | bool | int | float | char | str | unit | nothing | just | newtype | seq | bytes =>
      exact .refl s

theorem moves_within {edit : Stage → Attempt Stage} {journal : Stage → List Entry}
    (h : ∀ s, Moves s (edit s).state (journal s)) (walk : List String) (s : Stage) :
    Moves s (s.within walk edit).state (s.keptWithin walk journal) := by
  induction walk generalizing s with
  | nil => exact h s
  | cons name rest ih =>
      rw [within, keptWithin]
      cases hs : s.scope name with
      | error fault => exact .refl s
      | ok inner => exact .enter hs (ih inner)

theorem moves_stage (g : Staging) (s : Stage) : Moves s (g.stage s).state (g.journal s) := by
  refine moves_within (fun inner => ?_) g.walk s
  cases g.request with
  | set name raw => exact moves_set inner name raw
  | update batch => exact moves_update inner batch
  | visit => exact .refl inner

theorem moves_after (s : Stage) (requests : List Staging) :
    Moves s (s.after requests) (s.journal requests) := by
  induction requests generalizing s with
  | nil => exact .refl s
  | cons g rest ih => exact (moves_stage g s).trans (ih _)

/-- What waits in a stage has a place in its target, at every depth. -/
inductive Fits : Stage → Prop where
  | intro (s : Stage) (sortedWrites : Table.Sorted s.writes) (sortedScopes : Table.Sorted s.scopes)
      (single : ∀ name raw, Table.find? name s.writes = some raw →
        ∃ d, s.target.schema.lookup name = some d ∧ d.group = none)
      (there : ∀ name inner, Table.find? name s.scopes = some inner →
        s.target.nested name = .ok inner.target)
      (inside : ∀ name inner, Table.find? name s.scopes = some inner → Fits inner) : Fits s

namespace Fits
variable {s : Stage}

theorem sortedWrites (h : s.Fits) : Table.Sorted s.writes := by cases h; assumption

theorem sortedScopes (h : s.Fits) : Table.Sorted s.scopes := by cases h; assumption

theorem single (h : s.Fits) {name : String} {raw : Value}
    (hf : Table.find? name s.writes = some raw) :
    ∃ d, s.target.schema.lookup name = some d ∧ d.group = none := by
  cases h with
  | intro _ _ _ hs => exact hs name raw hf

theorem there (h : s.Fits) {name : String} {inner : Stage}
    (hf : Table.find? name s.scopes = some inner) : s.target.nested name = .ok inner.target := by
  cases h with
  | intro _ _ _ _ ht => exact ht name inner hf

theorem inside (h : s.Fits) {name : String} {inner : Stage}
    (hf : Table.find? name s.scopes = some inner) : inner.Fits := by
  cases h with
  | intro _ _ _ _ _ hi => exact hi name inner hf

end Fits

theorem fits_start (target : Config) : (start target).Fits :=
  .intro _ Table.sorted_nil Table.sorted_nil (fun _ _ h => nomatch h) (fun _ _ h => nomatch h)
    fun _ _ h => nomatch h

theorem scope_eq_ok {s inner : Stage} {name : String} (h : s.scope name = .ok inner) :
    ∃ group, s.target.nested name = .ok group ∧
      (Table.find? name s.scopes = some inner ∨
        Table.find? name s.scopes = none ∧ inner = start group) := by
  unfold scope at h
  split at h
  · cases h
  · next group hg =>
      refine ⟨group, hg, ?_⟩
      split at h
      · next hf =>
          cases h
          exact .inl hf
      · next hf =>
          cases h
          exact .inr ⟨hf, rfl⟩

theorem scope_eq_error {s : Stage} {name : String} {fault : Fault}
    (h : s.scope name = .error fault) : s.target.nested name = .error fault := by
  unfold scope at h
  split at h
  · next he => rw [he, Except.error.inj h]
  · split at h <;> cases h

theorem Fits.scope {s inner : Stage} {name : String} (h : s.Fits) (hs : s.scope name = .ok inner) :
    inner.Fits ∧ s.target.nested name = .ok inner.target := by
  obtain ⟨group, hg, hf | ⟨_, rfl⟩⟩ := scope_eq_ok hs
  · exact ⟨h.inside hf, h.there hf⟩
  · exact ⟨fits_start group, hg⟩

theorem Fits.moves {s s' : Stage} {journal : List Entry} (h : s.Fits) (m : Moves s s' journal) :
    s'.Fits := by
  induction m with
  | refl => exact h
  | trans _ _ ih₁ ih₂ => exact ih₂ (ih₁ h)
  | @keep s d raw hd hg =>
      refine .intro _ (h.sortedWrites.insert d.name raw) h.sortedScopes ?_
        (fun _ _ => h.there) fun _ _ => h.inside
      intro other raw' hf
      rw [Table.find?_insert] at hf
      split_ifs at hf with he
      · exact ⟨d, he ▸ hd, hg⟩
      · exact h.single hf
  | @enter s inner inner' name _ hs hm ih =>
      obtain ⟨hfit, hn⟩ := h.scope hs
      refine .intro _ h.sortedWrites (h.sortedScopes.insert name inner')
        (fun _ _ => h.single) ?_ ?_
      · intro other t hf
        rw [withScope, Table.find?_insert] at hf
        split_ifs at hf with he
        · obtain rfl := Option.some.inj hf
          rw [he, hm.target]
          exact hn
        · exact h.there hf
      · intro other t hf
        rw [withScope, Table.find?_insert] at hf
        split_ifs at hf
        · exact Option.some.inj hf ▸ ih hfit
        · exact h.inside hf

theorem fits_after (target : Config) (requests : List Staging) :
    ((start target).after requests).Fits :=
  (fits_start target).moves (moves_after _ requests)

theorem target_after (target : Config) (requests : List Staging) :
    ((start target).after requests).target = target :=
  (moves_after (start target) requests).target

end SettingsTree.Stage
