import SettingsTree.Proofs.Config.WellFormed

/-!
# Staged and direct writes

Requests on a stage and the same requests made directly on a duplicate of its target
run side by side. As long as no constructor refuses a value, each request answers
alike on both sides, and the stage commits to the configuration on the other side at
every moment. The invariant is `Stage.Mirrors`. A constructor that refuses ends this:
directly it is run at once and its refusal is the answer, while a stage runs it when
it commits.
-/
namespace SettingsTree

namespace Stage
open Config

/-- The stage fits a well-formed target and commits to the configuration. -/
structure Mirrors (s : Stage) (c : Config) : Prop where
  fits : s.Fits
  target : s.target.WellFormed
  commits : Commits s c

namespace Mirrors
variable {s inner inner' : Stage} {c made made' : Config} {name : String} {d : Definition}

theorem ordered (h : Mirrors s c) : c.Ordered :=
  h.commits.ordered h.target.ordered h.fits

theorem definition (h : Mirrors s c) (name : String) :
    c.definition name = s.target.definition name := by
  rw [Config.definition, Config.definition, h.commits.schema]

theorem start {target : Config} (h : target.WellFormed) :
    Mirrors (start target) target.duplicate :=
  ⟨fits_start target, h, commits_start h.ordered⟩

theorem scope_ok (h : Mirrors s c) (hs : s.scope name = .ok inner) :
    ∃ made, c.nested name = .ok made ∧ Mirrors inner made := by
  obtain ⟨hfit, hn⟩ := h.fits.scope hs
  have hgroup := (nested_eq_ok.1 hn).2
  obtain ⟨made, hm, hcommits⟩ := h.commits.scope h.target.ordered hs
  exact ⟨made, hm, hfit, ⟨h.target.shaped.inside hgroup, h.target.ordered.inside hgroup⟩, hcommits⟩

theorem scope_error {fault : Fault} (h : Mirrors s c) (hs : s.scope name = .error fault) :
    c.nested name = .error fault := by
  have hn := scope_eq_error hs
  have hscopes : Table.find? name s.scopes = none := by
    cases hf : Table.find? name s.scopes with
    | none => rfl
    | some inner =>
        rw [h.fits.there hf] at hn
        cases hn
  unfold nested at hn ⊢
  rw [h.definition, h.commits.others hscopes]
  cases hd : s.target.definition name with
  | error f =>
      rw [hd] at hn
      exact hn
  | ok d =>
      rw [hd] at hn
      cases hg : Table.find? name s.target.groups with
      | none =>
          rw [hg] at hn
          exact hn
      | some group =>
          rw [hg] at hn
          cases hn

/-- A group has a scope, and it is what a direct write goes to. -/
theorem target_group {t : Schema} (h : Mirrors s c) (hl : s.target.schema.lookup name = some d)
    (hg : d.group = some t) :
    ∃ inner made, s.scope name = .ok inner ∧ c.nested name = .ok made ∧
      c.target name = .ok (.group made) ∧ Mirrors inner made := by
  cases hs : s.scope name with
  | error fault =>
      obtain ⟨group, hgroup⟩ := h.target.shaped.present hl hg
      have hn : s.target.nested name = .ok group := nested_eq_ok.2 ⟨⟨d, hl⟩, hgroup⟩
      rw [scope_eq_error hs] at hn
      cases hn
  | ok inner =>
      obtain ⟨made, hn, hm⟩ := h.scope_ok hs
      have hlc : c.schema.lookup name = some d := by rwa [h.commits.schema]
      have ht := target_of_group h.commits.opened hlc hg (nested_eq_ok.1 hn).2
      exact ⟨inner, made, rfl, hn, ht, hm⟩

theorem keep (h : Mirrors s c) {raw v : Value} (hl : s.target.schema.lookup name = some d)
    (hg : d.group = none) (hv : d.resolve (some raw) = .ok v) :
    Mirrors { s with writes := Table.insert name raw s.writes } (c.withValue name v) := by
  have hc := h.commits
  refine ⟨h.fits.moves (moves_keep raw hl hg), h.target, ?_⟩
  refine .intro _ _ hc.schema hc.opened (hc.sortedValues.insert name v) hc.sortedGroups ?_ ?_
    (fun _ _ => hc.entered) (fun _ => hc.others) fun _ _ _ => hc.inside
  · intro other raw' hf
    rw [Table.find?_insert] at hf
    rw [withValue, Table.find?_insert]
    split_ifs at hf ⊢ with he
    · obtain rfl := Option.some.inj hf
      exact ⟨d, v, he ▸ hl, hv, rfl⟩
    · exact hc.written hf
  · intro other hf
    rw [Table.find?_insert] at hf
    rw [withValue, Table.find?_insert]
    split_ifs at hf ⊢ with he
    exact hc.kept hf

theorem enter {journal : List Entry} (h : Mirrors s c) (hs : s.scope name = .ok inner)
    (hm : Moves inner inner' journal) (hi : Mirrors inner' made') :
    Mirrors (s.withScope name inner') (c.withGroup name made') := by
  have hc := h.commits
  refine ⟨h.fits.moves (.enter hs hm), h.target, ?_⟩
  refine .intro _ _ hc.schema hc.opened hc.sortedValues (hc.sortedGroups.insert name made')
    (fun _ _ => hc.written) (fun _ => hc.kept) ?_ ?_ ?_
  · intro other t hf
    rw [withScope, Table.find?_insert] at hf
    rw [withGroup, Table.find?_insert]
    split_ifs at hf ⊢
    · exact ⟨made', rfl⟩
    · exact hc.entered hf
  · intro other hf
    rw [withScope, Table.find?_insert] at hf
    rw [withGroup, Table.find?_insert]
    split_ifs at hf ⊢
    exact hc.others hf
  · intro other t made hf hg
    rw [withScope, Table.find?_insert] at hf
    rw [withGroup, Table.find?_insert] at hg
    split_ifs at hf hg
    · obtain rfl := Option.some.inj hf
      obtain rfl := Option.some.inj hg
      exact hi.commits
    · exact hc.inside hf hg

end Mirrors

/-- Both sides answer alike, and the stage mirrors the configuration afterwards. -/
structure Agree (a : Attempt Stage) (b : Attempt Config) : Prop where
  fault : a.fault = b.fault
  mirrors : Mirrors a.state b.state

/-- No constructor refused its value. -/
def Constructed (b : Attempt Config) : Prop :=
  ∀ setting reason, b.fault ≠ some (.rejected setting reason)

section Requests
variable {s inner : Stage} {c made : Config} {name : String} {d : Definition}

theorem agree_failed (h : Mirrors s c) (fault : Fault) :
    Agree (.failed s fault) (.failed c fault) :=
  ⟨rfl, h⟩

theorem agree_into {a : Attempt Stage} {b : Attempt Config} (h : Mirrors s c)
    {journal : List Entry} (hs : s.scope name = .ok inner)
    (hm : Moves inner a.state journal) (ha : Agree a b) :
    Agree (a.into (s.withScope name)) (b.into (c.withGroup name)) :=
  ⟨ha.fault, h.enter hs hm ha.mirrors⟩

theorem agree_andThen {a : Attempt Stage} {b : Attempt Config} {onStage : Stage → Attempt Stage}
    {onConfig : Config → Attempt Config} (hfirst : Constructed b → Agree a b)
    (hnext : Mirrors a.state b.state → Constructed (onConfig b.state) →
      Agree (onStage a.state) (onConfig b.state))
    (hb : Constructed (b.andThen onConfig)) : Agree (a.andThen onStage) (b.andThen onConfig) := by
  cases hf : b.fault with
  | none =>
      have ha := hfirst fun setting reason he => by simp [hf] at he
      rw [Attempt.andThen_of_fault_eq_none hf] at hb ⊢
      rw [Attempt.andThen_of_fault_eq_none (ha.fault.trans hf)]
      exact hnext ha.mirrors hb
  | some fault =>
      rw [Attempt.andThen_of_fault_eq_some hf] at hb ⊢
      have ha := hfirst hb
      rw [Attempt.andThen_of_fault_eq_some (ha.fault.trans hf)]
      exact ha

theorem agree_setting (h : Mirrors s c) (hl : s.target.schema.lookup name = some d)
    (hg : d.group = none) (raw : Value) (hb : Constructed (c.set name raw)) :
    Agree (.done { s with writes := Table.insert name raw s.writes }) (c.set name raw) := by
  have hlc : c.schema.lookup name = some d := by rwa [h.commits.schema]
  have hset := set_of_setting (target_of_single h.commits.opened hlc hg) raw
  rw [hset] at hb ⊢
  unfold assign at hb ⊢
  rw [(Schema.lookup_some hl).2]
  cases hv : d.resolve (some raw) with
  | ok v => exact ⟨rfl, h.keep hl hg hv⟩
  | error fault =>
      obtain ⟨reason, rfl⟩ := Definition.fault_of_resolve hv
      rw [hv] at hb
      exact absurd rfl (hb d.name reason)

theorem agree_set_of_not_map (h : Mirrors s c) (name : String) {raw : Value}
    (hm : ∀ entries, raw ≠ .map entries) (hb : Constructed (c.set name raw)) :
    Agree (s.set name raw) (c.set name raw) := by
  rw [set_of_not_map s name hm]
  cases hd : s.target.definition name with
  | error fault =>
      have ht : c.target name = .error fault := by
        simp [Config.target, h.commits.opened, h.definition, hd]
      rw [Config.set_of_not_map c name hm, ht]
      exact agree_failed h fault
  | ok d =>
      have hl := definition_eq_ok.1 hd
      cases hg : d.group with
      | none =>
          simp only [Definition.isGroup, hg, Option.isSome_none, Bool.false_eq_true, if_false]
          exact agree_setting h hl hg raw hb
      | some t =>
          obtain ⟨inner, made, _, _, ht, _⟩ := h.target_group hl hg
          rw [Config.set_of_not_map c name hm, ht]
          simp only [Definition.isGroup, hg, Option.isSome_some, if_true]
          exact agree_failed h _

mutual

theorem agree_set : ∀ {s : Stage} {c : Config} (name : String) (raw : Value), Mirrors s c →
    Constructed (c.set name raw) → Agree (s.set name raw) (c.set name raw)
  | s, c, name, .map entries, h, hb => by
      rw [set]
      cases hd : s.target.definition name with
      | error fault =>
          have ht : c.target name = .error fault := by
            simp [Config.target, h.commits.opened, h.definition, hd]
          rw [Config.set, ht]
          exact agree_failed h fault
      | ok d =>
          have hl := definition_eq_ok.1 hd
          cases hg : d.group with
          | none =>
              simp only [Definition.isGroup, hg, Option.isSome_none, Bool.false_eq_true, if_false]
              exact agree_setting h hl hg _ hb
          | some t =>
              obtain ⟨inner, made, hs, hn, ht, hm⟩ := h.target_group hl hg
              rw [Config.set, ht] at hb ⊢
              simp only [Definition.isGroup, hg, Option.isSome_some, if_true, hs]
              cases hk : strayKey? entries with
              | none =>
                  rw [hk] at hb
                  exact agree_into h hs (moves_setAll inner entries) (agree_setAll entries hm hb)
              | some key =>
                  -- The scope counts as entered, which shows in no configuration.
                  have hsame : c.withGroup name made = c :=
                    h.ordered.withGroup_self (nested_eq_ok.1 hn).2
                  refine ⟨rfl, ?_⟩
                  rw [← hsame]
                  exact h.enter hs (.refl inner) hm
  | s, c, name, .bool _, h, hb | s, c, name, .int _, h, hb | s, c, name, .float _, h, hb
  | s, c, name, .char _, h, hb | s, c, name, .str _, h, hb | s, c, name, .unit, h, hb
  | s, c, name, .nothing, h, hb | s, c, name, .just _, h, hb | s, c, name, .newtype _, h, hb
  | s, c, name, .seq _, h, hb | s, c, name, .bytes _, h, hb =>
      agree_set_of_not_map h name (fun _ he => nomatch he) hb

theorem agree_setAll : ∀ {s : Stage} {c : Config} (entries : List (Value × Value)), Mirrors s c →
    Constructed (c.setAll entries) → Agree (s.setAll entries) (c.setAll entries)
  | s, c, [], h, _ => ⟨rfl, h⟩
  | s, c, (key, raw) :: rest, h, hb => by
      by_cases hk : ∃ name, key = .str name
      · obtain ⟨name, rfl⟩ := hk
        rw [setAll, Config.setAll] at *
        exact agree_andThen (agree_set name raw h) (fun h hb => agree_setAll rest h hb) hb
      · have hne : ∀ name, key = .str name → False := fun name he => hk ⟨name, he⟩
        rw [setAll.eq_3 s key raw rest hne, Config.setAll.eq_3 c key raw rest hne]
        exact agree_failed h _

end

theorem agree_update (h : Mirrors s c) (batch : Value) (hb : Constructed (c.update batch)) :
    Agree (s.update batch) (c.update batch) := by
  cases batch with
  | map entries =>
      simp only [update, Config.update] at hb ⊢
      cases hk : strayKey? entries with
      | some key => exact agree_failed h _
      | none =>
          rw [hk] at hb
          exact agree_setAll entries h hb
  | bool | int | float | char | str | unit | nothing | just | newtype | seq | bytes =>
      exact agree_failed h _

theorem agree_within {onStage : Stage → Attempt Stage} {onConfig : Config → Attempt Config}
    (hedit : ∀ {s c}, Mirrors s c → Constructed (onConfig c) → Agree (onStage s) (onConfig c))
    {journal : Stage → List Entry} (hmoves : ∀ s, Moves s (onStage s).state (journal s))
    (walk : List String) (h : Mirrors s c) (hb : Constructed (c.within walk onConfig)) :
    Agree (s.within walk onStage) (c.within walk onConfig) := by
  induction walk generalizing s c with
  | nil => exact hedit h hb
  | cons name rest ih =>
      rw [within, Config.within] at *
      cases hs : s.scope name with
      | error fault =>
          rw [h.scope_error hs]
          exact agree_failed h fault
      | ok inner =>
          obtain ⟨made, hn, hm⟩ := h.scope_ok hs
          rw [hn] at hb ⊢
          exact agree_into h hs (moves_within hmoves rest inner) (ih hm hb)

/-- A request does the same on both sides, unless a constructor refuses its value. -/
theorem agree_request (h : Mirrors s c) (g : Staging) (hb : Constructed (g.direct c)) :
    Agree (g.stage s) (g.direct c) := by
  obtain ⟨walk, request⟩ := g
  cases request with
  | set name raw =>
      exact agree_within (fun h hb => agree_set name raw h hb) (fun s => moves_set s name raw)
        walk h hb
  | update batch =>
      exact agree_within (fun h hb => agree_update h batch hb) (fun s => moves_update s batch)
        walk h hb
  | visit => exact agree_within (fun h _ => ⟨rfl, h⟩) .refl walk h hb

theorem agree_run (h : Mirrors s c) {requests : List Staging}
    (hb : ∀ setting reason, some (.rejected setting reason) ∉ c.answers requests) :
    s.answers requests = c.answers requests ∧
      Mirrors (s.after requests) (c.requested requests) := by
  induction requests generalizing s c with
  | nil => exact ⟨rfl, h⟩
  | cons g rest ih =>
      have hg := agree_request h g fun setting reason he =>
        hb setting reason (by rw [Config.answers, he]; exact List.mem_cons_self)
      have hr := ih hg.mirrors fun setting reason hm =>
        hb setting reason (List.mem_cons_of_mem _ hm)
      refine ⟨?_, hr.2⟩
      rw [answers, Config.answers, hg.fault, hr.1]

end Requests

/-- Requests staged for a well-formed target and the same requests made directly on a
duplicate of it answer alike, unless a constructor refuses a value of the direct ones.
The stage then commits, and to the very configuration that the direct requests leave. -/
theorem commit_eq_requested {target : Config} (h : target.WellFormed) (requests : List Staging)
    (hb : ∀ setting reason, some (.rejected setting reason) ∉ target.duplicate.answers requests) :
    (start target).answers requests = target.duplicate.answers requests ∧
      ((start target).after requests).commit = .ok (target.duplicate.requested requests) ∧
      (target.duplicate.requested requests).Open := by
  obtain ⟨hanswers, hm⟩ := agree_run (Mirrors.start h) hb
  exact ⟨hanswers, (commit_eq_ok_iff hm.fits hm.target.ordered).2 hm.commits, hm.commits.open⟩

/-- The target is frozen, a batch stops half way, a write is overwritten, and two more
requests are refused. -/
theorem commit_eq_requested_frozen_target :
    let target := (fresh extended).finalize
    let requests : List Staging :=
      [⟨[], .set "g" (.map [(.str "x", Registered.number 2), (.str "zz", .unit)])⟩,
        ⟨["g"], .set "x" (Registered.number 5)⟩, ⟨[], .set "a" (Registered.number 7)⟩,
        ⟨[], .set "g" .unit⟩, ⟨["a"], .update (.map [])⟩,
        ⟨[], .update (.map [(.str "a", Registered.number 8)])⟩]
    target.WellFormed ∧ target.frozen = true ∧
      target.duplicate.answers requests =
        [some (.unknownSetting "zz"), none, none, some (.mapExpected "g"),
          some (.notNested "a"), none] ∧
      (start target).answers requests = target.duplicate.answers requests ∧
      ((start target).after requests).commit = .ok (target.duplicate.requested requests) ∧
      (target.duplicate.requested requests).Open := by
  intro target requests
  have hwf : target.WellFormed :=
    ⟨(shaped_fresh proper_extended).finalize, (ordered_fresh extended).finalize⟩
  have ha : target.duplicate.answers requests =
      [some (.unknownSetting "zz"), none, none, some (.mapExpected "g"),
        some (.notNested "a"), none] := by cbv
  exact ⟨hwf, rfl, ha, commit_eq_requested hwf requests (by simp [ha])⟩

end Stage
end SettingsTree
