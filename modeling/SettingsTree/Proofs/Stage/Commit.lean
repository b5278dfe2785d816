import SettingsTree.Proofs.Config.Marks
import SettingsTree.Proofs.Stage.Moves

/-!
# What committing makes

`Stage.Commits s c` says name by name what the configuration `c` made from the
stage `s` holds: under a staged name what the constructor returns for the raw
value, under an entered group what its scope commits to, and everywhere else what
the target has, open. A stage that fits an ascending target commits to `c` exactly
if this holds, so there is at most one such `c`, and one exists exactly if no
constructor refuses a staged value.
-/
namespace SettingsTree.Stage

section Induction
variable {P : Stage → Prop}

mutual

theorem inductionOn (step : ∀ s : Stage, (∀ entry ∈ s.scopes, P entry.2) → P s) : ∀ s, P s
  | ⟨_, _, scopes⟩ => step _ (inductionOn_scopes step scopes)

theorem inductionOn_scopes (step : ∀ s : Stage, (∀ entry ∈ s.scopes, P entry.2) → P s) :
    ∀ (scopes : List (String × Stage)), ∀ entry ∈ scopes, P entry.2
  | [], _, h => by simp at h
  | (_, s) :: rest, entry, h => by
      rcases List.mem_cons.1 h with rfl | hr
      · exact inductionOn step s
      · exact inductionOn_scopes step rest entry hr

end

end Induction

/-- `c'` is `c` with the given raw values constructed and stored. -/
structure Written (writes : List (String × Value)) (c c' : Config) : Prop where
  schema : c'.schema = c.schema
  frozen : c'.frozen = c.frozen
  groups : c'.groups = c.groups
  sorted : Table.Sorted c.values → Table.Sorted c'.values
  written : ∀ name raw, Table.find? name writes = some raw →
    ∃ d v, c.schema.lookup name = some d ∧ d.resolve (some raw) = .ok v ∧
      Table.find? name c'.values = some v
  kept : ∀ name, Table.find? name writes = none →
    Table.find? name c'.values = Table.find? name c.values

theorem writeAll_cons {c : Config} {name : String} {d : Definition} (raw : Value)
    (rest : List (String × Value)) (hz : c.frozen = false)
    (hl : c.schema.lookup name = some d) (hg : d.group = none) :
    writeAll c ((name, raw) :: rest) =
      match d.resolve (some raw) with
      | .ok v => writeAll (c.withValue name v) rest
      | .error fault => .error fault := by
  rw [writeAll, Config.set_of_setting (Config.target_of_single hz hl hg), Config.assign,
    (Schema.lookup_some hl).2]
  cases d.resolve (some raw) <;> rfl

theorem written_of_writeAll {writes : List (String × Value)} {c c' : Config}
    (hs : Table.Sorted writes) (hz : c.frozen = false)
    (hw : ∀ entry ∈ writes, ∃ d, c.schema.lookup entry.1 = some d ∧ d.group = none)
    (h : writeAll c writes = .ok c') : Written writes c c' := by
  induction writes generalizing c with
  | nil =>
      obtain rfl := Except.ok.inj h
      exact ⟨rfl, rfl, rfl, id, fun _ _ hf => (nomatch hf), fun _ _ => rfl⟩
  | cons head rest ih =>
      obtain ⟨name, raw⟩ := head
      obtain ⟨d, hl, hg⟩ := hw _ List.mem_cons_self
      rw [writeAll_cons raw rest hz hl hg] at h
      split at h
      · next v hv =>
          have hr := ih (c := c.withValue name v) hs.rest hz
            (fun entry he => hw entry (List.mem_cons_of_mem _ he)) h
          refine ⟨hr.schema, hr.frozen, hr.groups, fun ho => hr.sorted (ho.insert name v),
            fun other raw' hf => ?_, fun other hf => ?_⟩
          · rw [Table.find?_cons] at hf
            split_ifs at hf with he
            · obtain rfl := Option.some.inj hf
              subst he
              refine ⟨d, v, hl, hv, ?_⟩
              rw [hr.kept name hs.find?_rest]
              exact Table.find?_insert_self name v c.values
            · exact hr.written other raw' hf
          · rw [Table.find?_cons] at hf
            split_ifs at hf with he
            rw [hr.kept other hf]
            exact Table.find?_insert_of_ne (Ne.symm he) v c.values
      · cases h

/-- Writing goes through if no constructor refuses its value. -/
theorem exists_writeAll {writes : List (String × Value)} {c : Config} (hz : c.frozen = false)
    (hw : ∀ entry ∈ writes, ∃ d v, c.schema.lookup entry.1 = some d ∧ d.group = none ∧
      d.resolve (some entry.2) = .ok v) : ∃ c', writeAll c writes = .ok c' := by
  induction writes generalizing c with
  | nil => exact ⟨c, rfl⟩
  | cons head rest ih =>
      obtain ⟨name, raw⟩ := head
      obtain ⟨d, v, hl, hg, hv⟩ := hw _ List.mem_cons_self
      rw [writeAll_cons raw rest hz hl hg, hv]
      exact ih (c := c.withValue name v) hz fun entry he => hw entry (List.mem_cons_of_mem _ he)

/-- `c'` is `c` with what the given scopes commit to in the place of their groups. -/
structure Swapped (scopes : List (String × Stage)) (c c' : Config) : Prop where
  schema : c'.schema = c.schema
  frozen : c'.frozen = c.frozen
  values : c'.values = c.values
  sorted : Table.Sorted c.groups → Table.Sorted c'.groups
  entered : ∀ name inner, Table.find? name scopes = some inner →
    ∃ made, inner.commit = .ok made ∧ Table.find? name c'.groups = some made
  others : ∀ name, Table.find? name scopes = none →
    Table.find? name c'.groups = Table.find? name c.groups

theorem swapped_of_commitScopes {scopes : List (String × Stage)} {c c' : Config}
    (hs : Table.Sorted scopes) (h : commitScopes c scopes = .ok c') : Swapped scopes c c' := by
  induction scopes generalizing c with
  | nil =>
      obtain rfl := Except.ok.inj h
      exact ⟨rfl, rfl, rfl, id, fun _ _ hf => (nomatch hf), fun _ _ => rfl⟩
  | cons head rest ih =>
      obtain ⟨name, inner⟩ := head
      rw [commitScopes] at h
      split at h
      · cases h
      · next made hm =>
          split at h
          · cases h
          · have hr := ih hs.rest h
            refine ⟨hr.schema, hr.frozen, hr.values, fun ho => hr.sorted (ho.insert name made),
              fun other inner' hf => ?_, fun other hf => ?_⟩
            · rw [Table.find?_cons] at hf
              split_ifs at hf with he
              · obtain rfl := Option.some.inj hf
                subst he
                refine ⟨made, hm, ?_⟩
                rw [hr.others name hs.find?_rest]
                exact Table.find?_insert_self name made c.groups
              · exact hr.entered other inner' hf
            · rw [Table.find?_cons] at hf
              split_ifs at hf with he
              rw [hr.others other hf]
              exact Table.find?_insert_of_ne (Ne.symm he) made c.groups

theorem exists_nested_withGroup {c made : Config} {name other : String}
    (h : ∃ group, c.nested other = .ok group) :
    ∃ group, (c.withGroup name made).nested other = .ok group := by
  obtain ⟨group, hg⟩ := h
  obtain ⟨hl, hf⟩ := Config.nested_eq_ok.1 hg
  by_cases hsame : other = name
  · refine ⟨made, Config.nested_eq_ok.2 ⟨hl, ?_⟩⟩
    rw [hsame]
    exact Table.find?_insert_self name made c.groups
  · refine ⟨group, Config.nested_eq_ok.2 ⟨hl, ?_⟩⟩
    rw [← hf]
    exact Table.find?_insert_of_ne hsame made c.groups

/-- The scopes commit if each one does and its group is there. -/
theorem exists_commitScopes {scopes : List (String × Stage)} {c : Config}
    (hn : ∀ entry ∈ scopes, ∃ group, c.nested entry.1 = .ok group)
    (hc : ∀ entry ∈ scopes, ∃ made, entry.2.commit = .ok made) :
    ∃ c', commitScopes c scopes = .ok c' := by
  induction scopes generalizing c with
  | nil => exact ⟨c, rfl⟩
  | cons head rest ih =>
      obtain ⟨name, inner⟩ := head
      obtain ⟨made, hm⟩ := hc _ List.mem_cons_self
      obtain ⟨group, hg⟩ := hn _ List.mem_cons_self
      simp only [commitScopes, hm, hg]
      exact ih (fun entry he => exists_nested_withGroup (hn entry (List.mem_cons_of_mem _ he)))
        fun entry he => hc entry (List.mem_cons_of_mem _ he)

/-- What a configuration made from a stage holds under each name. -/
inductive Commits : Stage → Config → Prop where
  | intro (s : Stage) (c : Config) (schema : c.schema = s.target.schema)
      (opened : c.frozen = false) (sortedValues : Table.Sorted c.values)
      (sortedGroups : Table.Sorted c.groups)
      (written : ∀ name raw, Table.find? name s.writes = some raw →
        ∃ d v, s.target.schema.lookup name = some d ∧ d.resolve (some raw) = .ok v ∧
          Table.find? name c.values = some v)
      (kept : ∀ name, Table.find? name s.writes = none →
        Table.find? name c.values = Table.find? name s.target.values)
      (entered : ∀ name inner, Table.find? name s.scopes = some inner →
        ∃ made, Table.find? name c.groups = some made)
      (others : ∀ name, Table.find? name s.scopes = none →
        Table.find? name c.groups = (Table.find? name s.target.groups).map Config.duplicate)
      (inside : ∀ name inner made, Table.find? name s.scopes = some inner →
        Table.find? name c.groups = some made → Commits inner made) : Commits s c

namespace Commits
variable {s inner : Stage} {c c' made : Config} {name : String} {raw : Value}

theorem schema (h : Commits s c) : c.schema = s.target.schema := by cases h; assumption

theorem opened (h : Commits s c) : c.frozen = false := by cases h; assumption

theorem sortedValues (h : Commits s c) : Table.Sorted c.values := by cases h; assumption

theorem sortedGroups (h : Commits s c) : Table.Sorted c.groups := by cases h; assumption

theorem written (h : Commits s c) (hf : Table.find? name s.writes = some raw) :
    ∃ d v, s.target.schema.lookup name = some d ∧ d.resolve (some raw) = .ok v ∧
      Table.find? name c.values = some v := by
  cases h with
  | intro _ _ _ _ _ _ hw => exact hw name raw hf

theorem kept (h : Commits s c) (hf : Table.find? name s.writes = none) :
    Table.find? name c.values = Table.find? name s.target.values := by
  cases h with
  | intro _ _ _ _ _ _ _ hk => exact hk name hf

theorem entered (h : Commits s c) (hf : Table.find? name s.scopes = some inner) :
    ∃ made, Table.find? name c.groups = some made := by
  cases h with
  | intro _ _ _ _ _ _ _ _ he => exact he name inner hf

theorem others (h : Commits s c) (hf : Table.find? name s.scopes = none) :
    Table.find? name c.groups = (Table.find? name s.target.groups).map Config.duplicate := by
  cases h with
  | intro _ _ _ _ _ _ _ _ _ ho => exact ho name hf

theorem inside (h : Commits s c) (hf : Table.find? name s.scopes = some inner)
    (hg : Table.find? name c.groups = some made) : Commits inner made := by
  cases h with
  | intro _ _ _ _ _ _ _ _ _ _ hi => exact hi name inner made hf hg

theorem ordered (h : Commits s c) (ht : s.target.Ordered) (hs : s.Fits) : c.Ordered := by
  induction h with
  | intro s c _ _ hv hg _ _ _ ho _ ih =>
      refine .intro c hv hg fun name made hm => ?_
      cases hf : Table.find? name s.scopes with
      | some inner =>
          have hn := (Config.nested_eq_ok.1 (hs.there hf)).2
          exact ih name inner made hf hm (ht.inside hn) (hs.inside hf)
      | none =>
          rw [ho name hf] at hm
          obtain ⟨group, hgroup, rfl⟩ := Option.map_eq_some_iff.1 hm
          exact (ht.inside hgroup).duplicate

theorem unique (h : Commits s c) (h' : Commits s c') : c = c' := by
  induction h generalizing c' with
  | intro s c hschema hz hsv hsg hw hk he ho _ ih =>
      have values : ∀ name, Table.find? name c.values = Table.find? name c'.values := by
        intro name
        cases hf : Table.find? name s.writes with
        | none => rw [hk name hf, h'.kept hf]
        | some raw =>
            obtain ⟨d, v, hl, hv, hc⟩ := hw name raw hf
            obtain ⟨d', v', hl', hv', hc'⟩ := h'.written hf
            obtain rfl := Option.some.inj (hl.symm.trans hl')
            obtain rfl := Except.ok.inj (hv.symm.trans hv')
            rw [hc, hc']
      have groups : ∀ name, Table.find? name c.groups = Table.find? name c'.groups := by
        intro name
        cases hf : Table.find? name s.scopes with
        | none => rw [ho name hf, h'.others hf]
        | some inner =>
            obtain ⟨made, hm⟩ := he name inner hf
            obtain ⟨made', hm'⟩ := h'.entered hf
            rw [hm, hm', ih name inner made hf hm (h'.inside hf hm')]
      exact Config.ext_of_sorted (hschema.trans h'.schema.symm) (hz.trans h'.opened.symm)
        hsv h'.sortedValues hsg h'.sortedGroups values groups

end Commits

theorem Commits.open {s : Stage} {c : Config} (h : Commits s c) : c.Open := by
  induction h with
  | intro s c _ hz _ _ _ _ _ ho _ ih =>
      refine .intro c hz fun name made hg => ?_
      cases hf : Table.find? name s.scopes with
      | some inner => exact ih name inner made hf hg
      | none =>
          rw [ho name hf] at hg
          obtain ⟨group, _, rfl⟩ := Option.map_eq_some_iff.1 hg
          exact Config.open_duplicate group

/-- A new stage commits to the duplicate of its target. -/
theorem commits_start {target : Config} (h : target.Ordered) :
    Commits (start target) target.duplicate :=
  .intro _ _ (Config.schema_duplicate target) (Config.frozen_duplicate target)
    h.duplicate.values h.duplicate.groups (fun _ _ hf => nomatch hf)
    (fun _ _ => by rw [Config.values_duplicate]; rfl) (fun _ _ hf => nomatch hf)
    (fun _ _ => Config.find?_groups_duplicate target _) fun _ _ _ hf => nomatch hf

theorem Commits.scope {s inner : Stage} {c : Config} {name : String} (h : Commits s c)
    (ht : s.target.Ordered) (hscope : s.scope name = .ok inner) :
    ∃ made, c.nested name = .ok made ∧ Commits inner made := by
  obtain ⟨group, hg, hf⟩ := scope_eq_ok hscope
  obtain ⟨⟨d, hl⟩, hgroup⟩ := Config.nested_eq_ok.1 hg
  have hlc : ∃ d, c.schema.lookup name = some d := ⟨d, by rwa [h.schema]⟩
  rcases hf with hf | ⟨hf, rfl⟩
  · obtain ⟨made, hm⟩ := h.entered hf
    exact ⟨made, Config.nested_eq_ok.2 ⟨hlc, hm⟩, h.inside hf hm⟩
  · have hm : Table.find? name c.groups = some group.duplicate := by
      rw [h.others hf, hgroup]
      rfl
    exact ⟨group.duplicate, Config.nested_eq_ok.2 ⟨hlc, hm⟩, commits_start (ht.inside hgroup)⟩

theorem commit_eq_ok {s : Stage} {c : Config} :
    s.commit = .ok c ↔
      ∃ swapped, commitScopes s.target.duplicate s.scopes = .ok swapped ∧
        writeAll swapped s.writes = .ok c := by
  cases s with
  | mk target writes scopes =>
      rw [commit]
      cases commitScopes target.duplicate scopes <;> simp

/-- What the groups were put into takes a value under every name that is staged. -/
theorem Fits.ready_of_commitScopes {s : Stage} {swapped : Config} (hs : s.Fits)
    (h : commitScopes s.target.duplicate s.scopes = .ok swapped) :
    swapped.schema = s.target.schema ∧ swapped.frozen = false ∧
      ∀ entry ∈ s.writes, ∃ d, swapped.schema.lookup entry.1 = some d ∧ d.group = none := by
  have hswapped := swapped_of_commitScopes hs.sortedScopes h
  have hschema : swapped.schema = s.target.schema := hswapped.schema.trans (by simp)
  refine ⟨hschema, hswapped.frozen.trans (by simp), fun entry he => ?_⟩
  rw [hschema]
  exact hs.single (hs.sortedWrites.find?_of_mem he)

theorem commits_of_commit {s : Stage} {c : Config} (hs : s.Fits) (ht : s.target.Ordered)
    (h : s.commit = .ok c) : Commits s c := by
  induction s using inductionOn generalizing c with
  | step s ih =>
      obtain ⟨swapped, hsw, hw⟩ := commit_eq_ok.1 h
      have hg := swapped_of_commitScopes hs.sortedScopes hsw
      obtain ⟨hschema, hz, hready⟩ := hs.ready_of_commitScopes hsw
      have hv : Written s.writes swapped c := written_of_writeAll hs.sortedWrites hz hready hw
      refine .intro s c (hv.schema.trans hschema) (hv.frozen.trans hz) ?_ ?_ ?_ ?_ ?_ ?_ ?_
      · refine hv.sorted ?_
        rw [hg.values]
        exact ht.duplicate.values
      · rw [hv.groups]
        exact hg.sorted ht.duplicate.groups
      · intro name raw hf
        have hd := hv.written name raw hf
        rwa [hschema] at hd
      · intro name hf
        rw [hv.kept name hf, hg.values, Config.values_duplicate]
      · intro name inner hf
        obtain ⟨made, _, hm⟩ := hg.entered name inner hf
        rw [hv.groups]
        exact ⟨made, hm⟩
      · intro name hf
        rw [hv.groups, hg.others name hf, Config.find?_groups_duplicate]
      · intro name inner made hf hm
        obtain ⟨made', hc, hm'⟩ := hg.entered name inner hf
        rw [hv.groups, hm'] at hm
        obtain rfl := Option.some.inj hm
        have hn := (Config.nested_eq_ok.1 (hs.there hf)).2
        exact ih _ (Table.mem_of_find? hf) (hs.inside hf) (ht.inside hn) hc

theorem Fits.nested_duplicate {s : Stage} (hs : s.Fits) :
    ∀ entry ∈ s.scopes, ∃ group, s.target.duplicate.nested entry.1 = .ok group := by
  intro entry he
  obtain ⟨hl, hf⟩ := Config.nested_eq_ok.1 (hs.there (hs.sortedScopes.find?_of_mem he))
  refine ⟨entry.2.target.duplicate, Config.nested_eq_ok.2 ⟨?_, ?_⟩⟩
  · simpa using hl
  · simp [hf]

/-- Committing fails only where no configuration would hold what is staged. -/
theorem exists_commit {s : Stage} {c : Config} (hs : s.Fits) (h : Commits s c) :
    ∃ c', s.commit = .ok c' := by
  induction s using inductionOn generalizing c with
  | step s ih =>
      have hscopes : ∀ entry ∈ s.scopes, ∃ made, entry.2.commit = .ok made := by
        intro entry he
        have hf := hs.sortedScopes.find?_of_mem he
        obtain ⟨made, hm⟩ := h.entered hf
        exact ih entry he (hs.inside hf) (h.inside hf hm)
      obtain ⟨swapped, hsw⟩ := exists_commitScopes hs.nested_duplicate hscopes
      obtain ⟨hschema, hz, hready⟩ := hs.ready_of_commitScopes hsw
      have hw : ∃ made, writeAll swapped s.writes = .ok made := by
        refine exists_writeAll hz fun entry he => ?_
        obtain ⟨d, v, hl, hv, _⟩ := h.written (hs.sortedWrites.find?_of_mem he)
        obtain ⟨d', hl', hd'⟩ := hready entry he
        rw [← hschema] at hl
        obtain rfl := Option.some.inj (hl.symm.trans hl')
        exact ⟨d, v, hl, hd', hv⟩
      obtain ⟨made, hmade⟩ := hw
      exact ⟨made, commit_eq_ok.2 ⟨swapped, hsw, hmade⟩⟩

/-- A stage that fits an ascending target commits to what `Commits` says. -/
theorem commit_eq_ok_iff {s : Stage} {c : Config} (hs : s.Fits) (ht : s.target.Ordered) :
    s.commit = .ok c ↔ Commits s c := by
  refine ⟨commits_of_commit hs ht, fun h => ?_⟩
  obtain ⟨c', hc'⟩ := exists_commit hs h
  rw [hc', (commits_of_commit hs ht hc').unique h]

theorem commits_after {target c : Config} (requests : List Staging) (h : target.Ordered)
    (hc : ((start target).after requests).commit = .ok c) :
    Commits ((start target).after requests) c := by
  refine commits_of_commit (fits_after target requests) ?_ hc
  rw [target_after]
  exact h

theorem exists_commits {target c : Config} {requests : List Staging} (h : target.Ordered)
    (hc : ((start target).after requests).commit = .ok c) :
    ∃ s : Stage, s.target = target ∧ s.Fits ∧ Commits s c :=
  ⟨_, target_after target requests, fits_after target requests, commits_after requests h hc⟩

end SettingsTree.Stage
