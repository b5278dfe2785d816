import SettingsTree.Proofs.Stage.Rejection

/-!
# Answers by the kind of a name

A name is undeclared, or it is that of a single setting, or that of a group. In a shaped
configuration every access to a name is answered by its kind: a group is there exactly for
the groups, and a fault about it names the kind. So nothing that writes finds a group
missing: a write is refused only because of the configuration, the name or the value, and a
commit only because of a constructor.
-/
namespace SettingsTree

/-- Why a write can be refused. A group that is not there is none of the reasons. -/
inductive Fault.OfWriting : Fault → Prop
  | frozen (name : String) : OfWriting (.frozenConfig name)
  | undeclared (name : String) : OfWriting (.unknownSetting name)
  | notMap (name : String) : OfWriting (.mapExpected name)
  | stray (key : Value) : OfWriting (.keyNotText key)
  | constructor (setting reason : String) : OfWriting (.rejected setting reason)

inductive Fault.OfCommitting : Fault → Prop
  | constructor (setting reason : String) : OfCommitting (.rejected setting reason)

namespace Stage

theorem Fits.fault_of_commit {s : Stage} {fault : Fault} (hs : s.Fits)
    (h : s.commit = .error fault) : fault.OfCommitting := by
  obtain ⟨path, hfirst⟩ := hs.exists_rejectsFirst h
  obtain ⟨⟨reason, rfl⟩, _⟩ := hfirst.1.fault_eq
  exact .constructor path.leaf reason

end Stage

namespace Config
variable {c : Config} {name : String} {d : Definition} {s : Schema} {fault : Fault}

/-- What a name answers: it is undeclared, or that of a single setting, or that of a group. -/
theorem Shaped.kinds (h : c.Shaped) (name : String) :
    (c.schema.lookup name = none ∧ c.nested name = .error (.unknownSetting name) ∧
        ∀ inner, c.get name ≠ .ok (.group inner)) ∨
      (∃ d, c.schema.lookup name = some d ∧ d.group = none ∧
        c.nested name = .error (.notNested name) ∧ ∀ inner, c.get name ≠ .ok (.group inner)) ∨
      ∃ d inner, c.schema.lookup name = some d ∧ d.group = some inner.schema ∧
        c.nested name = .ok inner ∧ c.get name = .ok (.group inner) := by
  cases hl : c.schema.lookup name with
  | none =>
      refine .inl ⟨rfl, ?_, fun inner => ?_⟩
      · simp only [nested, definition, hl]
      · simp [get, definition, hl]
  | some d =>
      cases hg : d.group with
      | none =>
          have hf := h.no_group_of_single hl hg
          refine .inr (.inl ⟨d, rfl, hg, ?_, fun inner => ?_⟩)
          · simp only [nested, definition_eq_ok.2 hl, hf]
          · simp only [get, definition_eq_ok.2 hl, hf]
            cases Table.find? name c.values with
            | some v => simp
            | none => cases d.resolve none <;> simp [Except.map]
      | some s =>
          obtain ⟨inner, hf, rfl⟩ := h.group_of_lookup hl hg
          refine .inr (.inr ⟨d, inner, rfl, hg, nested_eq_ok.2 ⟨⟨d, hl⟩, hf⟩, ?_⟩)
          simp only [get, definition_eq_ok.2 hl, hf]

theorem Shaped.fault_of_target (h : c.Shaped) (ht : c.target name = .error fault) :
    fault.OfWriting := by
  unfold target definition at ht
  split_ifs at ht
  · exact Except.error.inj ht ▸ .frozen name
  · cases hl : c.schema.lookup name with
    | none =>
        rw [hl] at ht
        exact Except.error.inj ht ▸ .undeclared name
    | some d =>
        simp only [hl] at ht
        split_ifs at ht with hg
        obtain ⟨s, hs⟩ := Option.isSome_iff_exists.1 hg
        obtain ⟨inner, hf, _⟩ := h.group_of_lookup hl hs
        rw [hf] at ht
        cases ht

theorem fault_of_assign {raw : Value} (h : (c.assign d raw).fault = some fault) :
    fault.OfWriting := by
  unfold assign at h
  split at h
  · cases h
  · next hr =>
      obtain ⟨reason, rfl⟩ := Definition.fault_of_resolve hr
      exact Option.some.inj h ▸ .constructor d.name reason

theorem fault_of_set_of_not_map (c : Config) (name : String) {raw : Value}
    (hraw : ∀ entries, raw ≠ .map entries) (h : c.Shaped) (fault : Fault)
    (hf : (c.set name raw).fault = some fault) : fault.OfWriting := by
  rw [set_of_not_map c name hraw] at hf
  split at hf
  · next ht => exact Option.some.inj hf ▸ h.fault_of_target ht
  · exact fault_of_assign hf
  · exact Option.some.inj hf ▸ .notMap name

mutual

theorem fault_of_set : ∀ (c : Config) (name : String) (raw : Value), c.Shaped →
    ∀ fault, (c.set name raw).fault = some fault → fault.OfWriting
  | c, name, .map entries => by
      intro h fault hf
      rw [set] at hf
      split at hf
      · next ht => exact Option.some.inj hf ▸ h.fault_of_target ht
      · exact fault_of_assign hf
      · next inner ht =>
          split at hf
          · exact Option.some.inj hf ▸ .stray _
          · exact fault_of_setAll inner entries (h.inside (find?_of_target ht)) fault hf
  | c, name, .bool _ | c, name, .int _ | c, name, .float _ | c, name, .char _
  | c, name, .str _ | c, name, .unit | c, name, .nothing | c, name, .just _
  | c, name, .newtype _ | c, name, .seq _ | c, name, .bytes _ =>
      fault_of_set_of_not_map c name fun _ he => nomatch he

theorem fault_of_setAll : ∀ (c : Config) (entries : List (Value × Value)), c.Shaped →
    ∀ fault, (c.setAll entries).fault = some fault → fault.OfWriting
  | c, [] => by
      intro _ fault hf
      rw [setAll] at hf
      cases hf
  | c, (key, raw) :: rest => by
      intro h fault hf
      by_cases hk : ∃ name, key = .str name
      · obtain ⟨name, rfl⟩ := hk
        rw [setAll, Attempt.andThen] at hf
        split at hf
        · exact fault_of_setAll _ rest (h.changes (changes_set c name raw)) fault hf
        · exact fault_of_set c name raw h fault hf
      · rw [setAll.eq_3 c key raw rest fun name he => hk ⟨name, he⟩] at hf
        exact Option.some.inj hf ▸ .stray key

end

theorem WellFormed.set_of_group {inner : Config} (h : c.WellFormed) (hz : c.frozen = false)
    (hg : d.group = some inner.schema) (hl : c.schema.lookup name = some d)
    (hn : c.nested name = .ok inner) (entries : List (Value × Value)) :
    c.set name (.map entries) = (inner.update (.map entries)).into (c.withGroup name) := by
  have hf := (nested_eq_ok.1 hn).2
  rw [set, target_of_group hz hl hg hf, update]
  cases strayKey? entries with
  | none => rfl
  | some key =>
      rw [Attempt.into, Attempt.state_failed, h.ordered.withGroup_self hf]
      rfl

/-- Every access to a name is answered by what is declared under it. -/
structure AnswersByKind (c : Config) : Prop where
  get_group : ∀ name, (∃ inner, c.get name = .ok (.group inner)) ↔
    ∃ d s, c.schema.lookup name = some d ∧ d.group = some s
  nested_unknown : ∀ name, c.nested name = .error (.unknownSetting name) ↔
    c.schema.lookup name = none
  nested_single : ∀ name, c.nested name = .error (.notNested name) ↔
    ∃ d, c.schema.lookup name = some d ∧ d.group = none
  /-- So is an access for changes. -/
  within_unknown : ∀ name, (c.within [name] .done).fault = some (.unknownSetting name) ↔
    c.schema.lookup name = none
  within_single : ∀ name, (c.within [name] .done).fault = some (.notNested name) ↔
    ∃ d, c.schema.lookup name = some d ∧ d.group = none
  /-- The group of a name is bound to the schema of its definition, and a map that is
  written under the name updates it. -/
  group : ∀ name d s, c.schema.lookup name = some d → d.group = some s →
    ∃ inner, inner.schema = s ∧ c.nested name = .ok inner ∧ c.get name = .ok (.group inner) ∧
      (c.frozen = false → ∀ entries, c.set name (.map entries) =
        (inner.update (.map entries)).into (c.withGroup name))
  set_fault : ∀ name raw fault, (c.set name raw).fault = some fault → fault.OfWriting
  commit_fault : ∀ requests fault, ((Stage.start c).after requests).commit = .error fault →
    fault.OfCommitting

theorem fault_within_done (c : Config) (name : String) (fault : Fault) :
    (c.within [name] .done).fault = some fault ↔ c.nested name = .error fault := by
  rw [within]
  cases c.nested name <;> simp [within]

theorem WellFormed.answersByKind (h : c.WellFormed) : c.AnswersByKind := by
  have hunknown : ∀ name, c.nested name = .error (.unknownSetting name) ↔
      c.schema.lookup name = none := by
    intro name
    rcases h.shaped.kinds name with ⟨hl, hn, _⟩ | ⟨d, hl, _, hn, _⟩ | ⟨d, inner, hl, _, hn, _⟩ <;>
      simp [hl, hn]
  have hsingle : ∀ name, c.nested name = .error (.notNested name) ↔
      ∃ d, c.schema.lookup name = some d ∧ d.group = none := by
    intro name
    rcases h.shaped.kinds name with ⟨hl, hn, _⟩ | ⟨d, hl, hg, hn, _⟩ | ⟨d, inner, hl, hg, hn, _⟩ <;>
      simp [*]
  refine ⟨fun name => ?_, hunknown, hsingle, fun name => ?_, fun name => ?_,
    fun name d s hl hg => ?_, fun name raw fault => fault_of_set c name raw h.shaped fault,
    fun requests fault hc => (Stage.fits_after c requests).fault_of_commit hc⟩
  · rcases h.shaped.kinds name with ⟨hl, _, hn⟩ | ⟨d, hl, hg, _, hn⟩ | ⟨d, inner, hl, hg, _, hn⟩ <;>
      simp [*]
  · rw [fault_within_done, hunknown]
  · rw [fault_within_done, hsingle]
  · rcases h.shaped.kinds name with ⟨hn, _⟩ | ⟨d', hl', hg', _⟩ | ⟨d', inner, hl', hg', hn, hget⟩
    · rw [hl] at hn
      cases hn
    · obtain rfl := Option.some.inj (hl'.symm.trans hl)
      rw [hg] at hg'
      cases hg'
    · obtain rfl := Option.some.inj (hl'.symm.trans hl)
      exact ⟨inner, Option.some.inj (hg'.symm.trans hg), hn, hget, fun hz entries =>
        h.set_of_group hz hg' hl hn entries⟩

/-- After every history, refused steps included, the configuration and all groups inside hold
what their schemas declare, and answer accordingly. -/
theorem shaped_and_answersByKind_after {history : List Step} (hs : s.Proper)
    (hh : ∀ step ∈ history, step.Proper) {walk : List String} {inner : Config}
    (hd : ((fresh s).after history).descend walk = .ok inner) :
    inner.Shaped ∧ inner.AnswersByKind := by
  have hw := wellFormed_after (wellFormed_fresh hs) hh
  have hi : inner.WellFormed := ⟨hw.shaped.descend hd, hw.ordered.descend hd⟩
  exact ⟨hi.shaped, hi.answersByKind⟩

/-- A write is refused, a frozen configuration gets a group, and a staged value is committed. -/
def eventful : List Step :=
  [.edit ⟨[], .set "b" .unit⟩, .edit ⟨[], .finalize⟩, .copy ⟨[], .rebind extended⟩,
    .edit ⟨[], .set "a" (Registered.number 3)⟩,
    .copy ⟨[], .commit [⟨["g"], .set "x" (Registered.number 2)⟩]⟩]

theorem shaped_and_answersByKind_after_eventful :
    ∃ inner, (plain.Proper ∧ (∀ step ∈ eventful, step.Proper) ∧
        ((fresh plain).after eventful).descend ["g"] = .ok inner) ∧
      (inner.Shaped ∧ inner.AnswersByKind) ∧ inner.value "x" = .ok (Registered.number 2) ∧
      inner.nested "x" = .error (.notNested "x") := by
  have hplain : plain.Proper := .intro _ (by decide) (fun _ _ => trivial) (by simp [plain])
  have hsteps : ∀ step ∈ eventful, step.Proper := by
    simp [eventful, Step.Proper, proper_extended]
  have hrun : ∃ inner, ((fresh plain).after eventful).descend ["g"] = .ok inner ∧
      inner.value "x" = .ok (Registered.number 2) ∧ inner.nested "x" = .error (.notNested "x") :=
    ⟨_, rfl, rfl, rfl⟩
  obtain ⟨inner, hd, hx, hn⟩ := hrun
  exact ⟨inner, ⟨hplain, hsteps, hd⟩, shaped_and_answersByKind_after hplain hsteps hd, hx, hn⟩

end Config
end SettingsTree
