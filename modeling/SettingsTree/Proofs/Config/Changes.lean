import SettingsTree.Proofs.Config.Journal
import SettingsTree.Proofs.Config.Groups

/-!
# What a call can change

`Config.Changes` lists the moves that calls are made of, each with its journal: a
value that the constructor of its setting returned is stored in an open
configuration, a group gives way to what became of it, and a configuration is
finalized. Every edit is a sequence of such moves, whether it goes
through or is refused half way, and its journal is theirs. An invariant of edits is
proved by cases on the moves.
-/
namespace SettingsTree.Config

theorem definition_eq_ok {c : Config} {name : String} {d : Definition} :
    c.definition name = .ok d ↔ c.schema.lookup name = some d := by
  unfold definition
  cases c.schema.lookup name <;> simp

theorem nested_eq_ok {c inner : Config} {name : String} :
    c.nested name = .ok inner ↔
      (∃ d, c.schema.lookup name = some d) ∧ Table.find? name c.groups = some inner := by
  unfold nested definition
  cases c.schema.lookup name <;> cases Table.find? name c.groups <;> simp

/-- What a configuration passes on to its groups holds at the end of a walk. -/
theorem descend_keeps {P : Config → Prop}
    (hP : ∀ {c inner : Config} {name : String}, P c → Table.find? name c.groups = some inner →
      P inner)
    {walk : List String} {c inner : Config} (h : P c) (hd : c.descend walk = .ok inner) :
    P inner := by
  induction walk generalizing c with
  | nil =>
      obtain rfl := Except.ok.inj hd
      exact h
  | cons name rest ih =>
      rw [descend] at hd
      split at hd
      · cases hd
      · next hn => exact ih (hP h (nested_eq_ok.1 hn).2) hd

/-- What a configuration passes on to its groups, and has again once they are replaced by such that
have it, holds after one is replaced at the end of a walk. -/
theorem replace_keeps {P : Config → Prop}
    (hinside : ∀ {c inner : Config} {name : String}, P c →
      Table.find? name c.groups = some inner → P inner)
    (hgroup : ∀ {c old inner : Config} {name : String}, P c →
      Table.find? name c.groups = some old → P inner → P (c.withGroup name inner))
    {c other : Config} (walk : List String) (h : P c) (ho : P other) :
    P (c.within walk fun _ => .done other).state := by
  induction walk generalizing c with
  | nil => exact ho
  | cons name rest ih =>
      rw [within]
      cases hn : c.nested name with
      | error fault => exact h
      | ok inner =>
          have hf := (nested_eq_ok.1 hn).2
          exact hgroup h hf (ih (hinside h hf))

theorem find?_of_target {c inner : Config} {name : String}
    (h : c.target name = .ok (.group inner)) : Table.find? name c.groups = some inner := by
  unfold target at h
  split_ifs at h
  split at h
  · cases h
  · split_ifs at h
    · split at h
      · next hf => cases h; exact hf
      · cases h
    · cases h

theorem open_of_target {c : Config} {name : String} {t : Target}
    (h : c.target name = .ok t) : c.frozen = false := by
  unfold target at h
  split_ifs at h with hf
  exact Bool.eq_false_iff.2 hf

theorem setting_of_target {c : Config} {name : String} {d : Definition}
    (h : c.target name = .ok (.setting d)) :
    c.schema.lookup name = some d ∧ d.name = name ∧ d.group = none := by
  unfold target at h
  split_ifs at h
  split at h
  · cases h
  · next hd =>
      split_ifs at h with hg
      · split at h <;> cases h
      · cases h
        have hl := definition_eq_ok.1 hd
        refine ⟨hl, (Schema.lookup_some hl).2, ?_⟩
        simpa [Definition.isGroup] using hg

theorem target_of_single {c : Config} {name : String} {d : Definition} (hz : c.frozen = false)
    (hl : c.schema.lookup name = some d) (hg : d.group = none) :
    c.target name = .ok (.setting d) := by
  simp [target, hz, definition_eq_ok.2 hl, Definition.isGroup, hg]

theorem target_of_group {c inner : Config} {name : String} {d : Definition} {s : Schema}
    (hz : c.frozen = false) (hl : c.schema.lookup name = some d) (hg : d.group = some s)
    (hf : Table.find? name c.groups = some inner) : c.target name = .ok (.group inner) := by
  simp [target, hz, definition_eq_ok.2 hl, Definition.isGroup, hg, hf]

theorem set_of_not_map (c : Config) (name : String) {raw : Value}
    (h : ∀ entries, raw ≠ .map entries) :
    c.set name raw =
      match c.target name with
      | .error fault => .failed c fault
      | .ok (.setting d) => c.assign d raw
      | .ok (.group _) => .failed c (.mapExpected name) :=
  set.eq_2 c name raw h

theorem set_of_setting {c : Config} {name : String} {d : Definition}
    (h : c.target name = .ok (.setting d)) (raw : Value) : c.set name raw = c.assign d raw := by
  by_cases hm : ∃ entries, raw = .map entries
  · obtain ⟨entries, rfl⟩ := hm
    rw [set, h]
  · rw [set_of_not_map c name fun entries he => hm ⟨entries, he⟩, h]

theorem set_of_refused {c : Config} {name : String} {fault : Fault}
    (h : c.target name = .error fault) (raw : Value) : c.set name raw = .failed c fault := by
  by_cases hm : ∃ entries, raw = .map entries
  · obtain ⟨entries, rfl⟩ := hm
    rw [set, h]
  · rw [set_of_not_map c name fun entries he => hm ⟨entries, he⟩, h]

theorem set_of_group_of_not_map {c inner : Config} {name : String}
    (h : c.target name = .ok (.group inner)) {raw : Value} (hm : ∀ entries, raw ≠ .map entries) :
    c.set name raw = .failed c (.mapExpected name) := by
  rw [set_of_not_map c name hm, h]

/-- The moves that calls on a configuration are made of, with their journals. -/
inductive Changes : Config → Config → List Entry → Prop where
  | refl (c : Config) : Changes c c []
  | trans {a b c : Config} {first second : List Entry} : Changes a b first →
      Changes b c second → Changes a c (first ++ second)
  | assign {c : Config} {d : Definition} {raw v : Value} (opened : c.frozen = false)
      (known : c.schema.lookup d.name = some d) (single : d.group = none)
      (made : d.resolve (some raw) = .ok v) :
      Changes c (c.withValue d.name v) [d.entry raw]
  | inside {c inner inner' : Config} {name : String} {journal : List Entry}
      (there : Table.find? name c.groups = some inner)
      (change : Changes inner inner' journal) :
      Changes c (c.withGroup name inner') (journal.map (Entry.under name))
  | finalize (c : Config) : Changes c c.finalize []

theorem Changes.andThen {c : Config} {a : Attempt Config} {next : Config → Attempt Config}
    {first : List Entry} {second : Config → List Entry} (h : Changes c a.state first)
    (hn : ∀ s, Changes s (next s).state (second s)) :
    Changes c (a.andThen next).state (a.followed first second) := by
  unfold Attempt.andThen Attempt.followed
  cases a.fault with
  | none => exact h.trans (hn a.state)
  | some fault => exact h.trans (.refl _)

theorem changes_assign {c : Config} {name : String} {d : Definition} (raw : Value)
    (h : c.target name = .ok (.setting d)) :
    Changes c (c.assign d raw).state (assigned d raw) := by
  obtain ⟨hl, hn, hg⟩ := setting_of_target h
  unfold assign assigned
  cases hr : d.resolve (some raw) with
  | ok v => exact .assign (open_of_target h) (hn ▸ hl) hg hr
  | error fault => exact .refl c

theorem changes_set_of_not_map (c : Config) (name : String) {raw : Value}
    (h : ∀ entries, raw ≠ .map entries) :
    Changes c (c.set name raw).state (c.written name raw) := by
  rw [set_of_not_map c name h, written.eq_2 c name raw h]
  cases ht : c.target name with
  | error fault => exact .refl c
  | ok t =>
      cases t with
      | setting d => exact changes_assign raw ht
      | group inner => exact .refl c

mutual

theorem changes_set : ∀ (c : Config) (name : String) (raw : Value),
    Changes c (c.set name raw).state (c.written name raw)
  | c, name, .map entries => by
      rw [set, written]
      cases ht : c.target name with
      | error fault => exact .refl c
      | ok t =>
          cases t with
          | setting d => exact changes_assign _ ht
          | group inner =>
              cases hk : strayKey? entries with
              | some key => exact .refl c
              | none => exact .inside (find?_of_target ht) (changes_setAll inner entries)
  | c, name, .bool _ | c, name, .int _ | c, name, .float _ | c, name, .char _
  | c, name, .str _ | c, name, .unit | c, name, .nothing | c, name, .just _
  | c, name, .newtype _ | c, name, .seq _ | c, name, .bytes _ =>
      changes_set_of_not_map c name fun _ h => nomatch h

theorem changes_setAll : ∀ (c : Config) (entries : List (Value × Value)),
    Changes c (c.setAll entries).state (c.writtenAll entries)
  | c, [] => .refl c
  | c, (key, raw) :: rest => by
      by_cases hk : ∃ name, key = .str name
      · obtain ⟨name, rfl⟩ := hk
        rw [setAll, writtenAll]
        exact (changes_set c name raw).andThen fun s => changes_setAll s rest
      · have hne : ∀ name, key = .str name → False := fun name he => hk ⟨name, he⟩
        rw [setAll.eq_3 c key raw rest hne, writtenAll.eq_3 c key raw rest hne]
        exact .refl c

end

theorem changes_update (c : Config) (batch : Value) :
    Changes c (c.update batch).state (c.writtenBatch batch) := by
  cases batch with
  | map entries =>
      simp only [update, writtenBatch]
      cases strayKey? entries with
      | some key => exact .refl c
      | none => exact changes_setAll c entries
  | bool | int | float | char | str | unit | nothing | just | newtype | seq | bytes =>
      exact .refl c

theorem changes_within {edit : Config → Attempt Config} {journal : Config → List Entry}
    (h : ∀ c, Changes c (edit c).state (journal c)) (walk : List String) (c : Config) :
    Changes c (c.within walk edit).state (c.writtenWithin walk journal) := by
  induction walk generalizing c with
  | nil => exact h c
  | cons name rest ih =>
      rw [within, writtenWithin]
      cases hn : c.nested name with
      | error fault => exact .refl c
      | ok inner => exact .inside (nested_eq_ok.1 hn).2 (ih inner)

theorem changes_action (c : Config) (a : Action) :
    Changes c (a.apply c).state (a.journal c) := by
  cases a with
  | set name raw => exact changes_set c name raw
  | setPath path raw =>
      exact changes_within (fun inner => changes_set inner (Path.parse path).leaf raw)
        (Path.parse path).parents c
  | setAs name shape raw =>
      simp only [Action.apply, Action.journal, setAs]
      cases raw.readAs shape with
      | ok value => exact changes_set c name value
      | error fault => exact .refl c
  | setWide => exact .refl c
  | setConfig name other =>
      simp only [Action.apply, Action.journal, setConfig]
      cases other.serialize with
      | ok value => exact changes_set c name value
      | error fault => exact .refl c
  | update batch => exact changes_update c batch
  | document text =>
      simp only [Action.apply, Action.journal, updateFromToml]
      cases Toml.read text with
      | some batch => exact changes_update c batch
      | none => exact .refl c
  | finalize => exact .finalize c

theorem changes_edit (c : Config) (e : Edit) :
    Changes c (e.apply c).state (e.journal c) :=
  changes_within (fun inner => changes_action inner e.action) e.walk c

theorem changes_editAll (edits : List Edit) (c : Config) :
    Changes c (c.editAll edits).state (c.journalAll edits) := by
  induction edits generalizing c with
  | nil => exact .refl c
  | cons e rest ih => exact (changes_edit c e).andThen ih

theorem Changes.schema {c c' : Config} {journal : List Entry} (h : Changes c c' journal) :
    c'.schema = c.schema := by
  induction h with
  | refl => rfl
  | trans _ _ ih₁ ih₂ => exact ih₂.trans ih₁
  | assign => rfl
  | inside => rfl
  | finalize => exact schema_finalize _

end SettingsTree.Config
