import SettingsTree.Proofs.Schema.Merging
import SettingsTree.Proofs.World.Alike
import SettingsTree.Proofs.World.Isolation

/-!
# Worlds under other numbers

Objects are numbered by the tick they were made in, so one more operation gives all objects
after it other numbers. Nothing else changes: if a world is another one with the objects under
other numbers, the same operations under these numbers lead to two such worlds again, and they
are answered alike.
-/
namespace SettingsTree

section Rename
variable (σ : Nat → Nat)

theorem Definition.joined_rename {d : Definition}
    (h : ∀ mine inner : Schema, d.group = some inner →
      (mine.rename σ).merge (inner.rename σ) = (mine.merge inner).rename σ)
    (ours : Option Definition) :
    (d.rename σ).joined (ours.map (rename σ)) = (d.joined ours).rename σ := by
  obtain ⟨stamp, name, fallback, construct, reader, _ | inner⟩ := d
  · rfl
  · obtain _ | ⟨_, _, _, _, _, _ | mine⟩ := ours
    · rfl
    · rfl
    · simp only [joined, rename, renameGroup, Option.map_some, Stamp.rename, h mine inner rfl]

namespace Schema

mutual

theorem merge_rename : ∀ ours theirs : Schema,
    (ours.rename σ).merge (theirs.rename σ) = (ours.merge theirs).rename σ
  | ours, ⟨ds, _⟩ => by
      rw [rename, merge, merge, rename_mk, definitions_rename, mergeInto_rename]

theorem mergeInto_rename : ∀ collected theirs : List Definition,
    mergeInto (collected.map (Definition.rename σ)) (renameAll σ theirs) =
      (mergeInto collected theirs).map (Definition.rename σ)
  | collected, [] => by rw [renameAll, mergeInto, mergeInto]
  | collected, ⟨stamp, name, fallback, construct, reader, group⟩ :: rest => by
      rw [renameAll, mergeInto_cons, mergeInto_cons, Definition.name_rename,
        Definition.find?_rename, Definition.joined_rename, Definition.insert_rename,
        mergeInto_rename]
      rintro mine inner rfl
      exact merge_rename mine inner

end

theorem duplicate_rename (s : Schema) : (s.rename σ).duplicate = s.duplicate.rename σ := by
  obtain ⟨ds, frozen⟩ := s
  rfl

theorem freeze_rename (s : Schema) : (s.rename σ).freeze = s.freeze.rename σ := by
  obtain ⟨ds, frozen⟩ := s
  rfl

def Making.rename : Making → Making
  | script s statements => .script (s.rename σ) (Declaration.renameAll σ statements)
  | define s name fallback construct reader group =>
      .define (s.rename σ) name fallback construct reader (group.map (Schema.rename σ))
  | incorporate s other => .incorporate (s.rename σ) (other.rename σ)
  | merge ours theirs => .merge (ours.rename σ) (theirs.rename σ)
  | exact s => .exact (s.rename σ)
  | duplicate s => .duplicate (s.rename σ)
  | freeze s => .freeze (s.rename σ)

theorem Making.apply_rename (author : Nat) (making : Making) :
    (making.rename σ).apply (σ author) = (making.apply author).rename σ := by
  cases making with
  | script s statements =>
      have hrun := Scope.run_rename σ ⟨s, { author }⟩ statements
      exact congrArg (fun a => (Attempt.state a).schema) hrun
  | define s name fallback construct reader group =>
      have hbuild := Definition.build_rename σ (.declared author 0) name fallback construct reader
        group
      rw [Stamp.rename] at hbuild
      simp only [rename, apply, hbuild]
      cases Definition.build (.declared author 0) name fallback construct reader group with
      | error fault => rfl
      | ok d => exact congrArg Attempt.state (declare_rename σ s d)
  | incorporate s other => exact congrArg Attempt.state (incorporate_rename σ s other)
  | merge ours theirs => exact merge_rename σ ours theirs
  | exact s => rfl
  | duplicate s => exact duplicate_rename σ s
  | freeze s => exact freeze_rename σ s

end Schema

def Op.rename : Op → Op
  | .schema making => .schema (making.rename σ)
  | .bind s => .bind (s.rename σ)
  | .found name => .found name
  | .derive parent name => .derive (σ parent) name
  | .spawn k => .spawn (σ k)
  | .copy k making => .copy (σ k) (making.rename σ)
  | .act k a => .act (σ k) (a.rename σ)

end Rename

theorem Op.call?_rename (σ : Nat → Nat) (op : Op) :
    (op.rename σ).call? = op.call?.map fun called => (σ called.1, called.2.rename σ) := by
  cases op <;> rfl

theorem Object.copied_rename {σ : Nat → Nat} (hσ : σ.Injective) (x : Object) (k : Config.Copy) :
    ((x.rename σ).config?.bind fun c => ((k.rename σ).apply c).toOption) =
      (x.config?.bind fun c => (k.apply c).toOption).map (Config.rename σ) := by
  rw [config?_rename hσ]
  cases x.config? with
  | none => rfl
  | some c =>
      rw [Option.map_some, Option.bind_some, Option.bind_some, Config.copy_rename hσ]
      cases k.apply c <;> rfl

namespace World

/-- The second world is the first one with every object under another number. -/
def Renumbered (σ : Nat → Nat) (w w' : World) : Prop :=
  ∀ k, w'.held (σ k) = (w.held k).map (Object.rename σ)

namespace Renumbered
variable {σ : Nat → Nat} {w w' : World} (hσ : σ.Injective)
include hσ

/-- What an operation makes is the same in the other world, but for its authors. -/
theorem made (h : Renumbered σ w w') (hclock : w'.clock = σ w.clock) (op : Op) :
    w'.made? (op.rename σ) = (w.made? op).map (Object.rename σ) := by
  cases op with
  | schema making =>
      simp only [Op.rename, World.made?, hclock, Schema.Making.apply_rename]
      rfl
  | bind s => exact congrArg (fun c => some (Object.config c)) (Config.fresh_rename σ s)
  | found name =>
      simp only [Op.rename, World.made?, hclock]
      rfl
  | derive parent name =>
      simp only [Op.rename, World.made?, derived?, h parent, hclock]
      rcases w.held parent with _ | (s | c | o | i)
      · rfl
      · rfl
      · rfl
      · exact congrArg (fun o => some (Object.owner o)) (Owner.derive_rename σ o name w.clock)
      · rfl
  | spawn k =>
      simp only [Op.rename, World.made?, h k]
      rcases w.held k with _ | (s | c | o | i)
      · rfl
      · rfl
      · rfl
      · exact congrArg (fun i => some (Object.inst i)) (Owner.spawn_rename hσ o)
      · rfl
  | copy k copy =>
      simp only [Op.rename, World.made?, h k]
      cases w.held k with
      | none => rfl
      | some x =>
          simp only [Option.map_some, Option.bind_some, Object.copied_rename hσ]
          cases x.config?.bind fun c => (copy.apply c).toOption <;> rfl
  | act k a => rfl

theorem step (h : Renumbered σ w w') (hclock : w'.clock = σ w.clock) (op : Op) :
    Renumbered σ (w.step op) (w'.step (op.rename σ)) := by
  intro k
  by_cases hk : k = w.clock
  · rw [hk, ← hclock, held_step_clock, held_step_clock]
    exact h.made hσ hclock op
  · have hk' : σ k ≠ w'.clock := by
      rw [hclock]
      exact hσ.ne hk
    rw [held_step w op hk, held_step w' _ hk', Op.call?_rename, h k]
    cases op.call? with
    | none => rfl
    | some called =>
        obtain ⟨j, call⟩ := called
        simp only [Option.map_some, hσ.eq_iff]
        split_ifs
        · cases w.held k with
          | none => rfl
          | some x => exact congrArg some (Object.call_rename hσ x call)
        · rfl

theorem replies (h : Renumbered σ w w') (hclock : w'.clock = σ w.clock) (k : Nat) (op : Op) :
    w'.replies (σ k) (op.rename σ) = w.replies k op := by
  unfold World.replies
  by_cases hk : k = w.clock
  · have hk' : σ k = w'.clock := by rw [hk, hclock]
    rw [if_pos hk, if_pos hk', h.step hσ hclock op k]
    cases (w.step op).held k with
    | none => rfl
    | some x => simp [Object.greeting_rename hσ x]
  · have hk' : σ k ≠ w'.clock := by
      rw [hclock]
      exact hσ.ne hk
    rw [if_neg hk, if_neg hk', Op.call?_rename]
    cases op.call? with
    | none => rfl
    | some called =>
        obtain ⟨j, call⟩ := called
        simp only [Option.map_some, hσ.eq_iff]
        split_ifs
        · rw [h k]
          cases w.held k with
          | none => rfl
          | some x => simp [Object.reply_rename hσ x call]
        · rfl

/-- The same operations lead to worlds that differ in the numbers again, and every object gives
the same answers in both. The numbers that are still to be given out must follow each other. -/
theorem after (h : Renumbered σ w w') (hnext : ∀ n, σ (w.clock + n) = w'.clock + n)
    (ops : List Op) :
    Renumbered σ (w.after ops) (w'.after (ops.map (Op.rename σ))) ∧
      ∀ k, w'.answersTo (σ k) (ops.map (Op.rename σ)) = w.answersTo k ops := by
  induction ops generalizing w w' with
  | nil => exact ⟨h, fun k => rfl⟩
  | cons op rest ih =>
      have hclock : w'.clock = σ w.clock := (hnext 0).symm
      obtain ⟨hafter, hanswers⟩ := ih (h.step hσ hclock op) fun n => by
        rw [clock_step, clock_step, Nat.add_right_comm, Nat.add_right_comm w'.clock]
        exact hnext (n + 1)
      refine ⟨hafter, fun k => ?_⟩
      rw [List.map_cons, answersTo, answersTo, h.replies hσ hclock k op, hanswers k]

end Renumbered
end World

namespace Config
variable (σ : Nat → Nat)

/-- An action takes from another configuration only what it serializes to. -/
theorem apply_of_rename (action : Action) (c : Config) :
    (action.rename σ).apply c = action.apply c := by
  cases action with
  | setConfig name other => simp only [Action.rename, Action.apply, setConfig, serialize_rename]
  | set | setPath | setAs | setWide | update | document | finalize => rfl

theorem edit_of_rename (e : Edit) : (e.rename σ).apply = e.apply := by
  funext c
  simp only [Edit.rename, Edit.apply, apply_of_rename]

theorem editAll_of_rename (edits : List Edit) (c : Config) :
    c.editAll (edits.map (Edit.rename σ)) = c.editAll edits := by
  induction edits generalizing c with
  | nil => rfl
  | cons e rest ih => simp only [List.map_cons, editAll, edit_of_rename, ih]

end Config

/-- A renamed call does the same if the schemas and configurations that it takes in are kept. -/
theorem Object.act_of_rename {σ : Nat → Nat} {a : Act} (hd : ∀ d, a = .declare d → d.rename σ = d)
    (hr : ∀ walk other, a = .replace walk other → other.rename σ = other) (x : Object) :
    x.act (a.rename σ) = x.act a := by
  cases a with
  | declare d => rw [Act.rename, hd d rfl]
  | replace walk other => rw [Act.rename, hr walk other rfl]
  | edit e =>
      cases x <;> simp only [Act.rename, Object.act, Config.act, Owner.act, Instance.act,
        Config.edit_of_rename]
  | configure edits =>
      cases x <;> simp only [Act.rename, Object.act, Config.act, Owner.act, Instance.act,
        Config.editAll_of_rename]
  | finalize | read | look => rfl

mutual

theorem Declaration.rename_eq_self {σ : Nat → Nat} : ∀ {d : Declaration},
    d.TakesIn (fun s => s.rename σ = s) → d.rename σ = d
  | .setting _ _, _ => rfl
  | .nested name options block, h => by rw [rename, renameAll_eq_self h]
  | .inclusion other, h => congrArg Declaration.inclusion h
  | .group name script, h => by rw [rename, renameAll_eq_self h]
  | .unregistered _, _ => rfl

theorem Declaration.renameAll_eq_self {σ : Nat → Nat} : ∀ {ds : List Declaration},
    Declaration.TakeIn (fun s => s.rename σ = s) ds → Declaration.renameAll σ ds = ds
  | [], _ => rfl
  | d :: rest, h => by rw [renameAll, rename_eq_self h.1, renameAll_eq_self h.2]

end

theorem Schema.Making.rename_eq_self {σ : Nat → Nat} {making : Schema.Making}
    (h : making.From fun s => s.rename σ = s) : making.rename σ = making := by
  cases making with
  | script s statements =>
      rw [rename, h.1, Declaration.renameAll_eq_self h.2]
  | define s name fallback construct reader group =>
      cases group with
      | none => rw [rename, h.1, Option.map_none]
      | some inner => rw [rename, h.1, Option.map_some, h.2 inner rfl]
  | incorporate s other | merge s other => rw [rename, h.1, h.2]
  | exact s => exact congrArg Making.exact h
  | duplicate s => exact congrArg Making.duplicate h
  | freeze s => exact congrArg Making.freeze h

end SettingsTree
