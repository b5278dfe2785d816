import Mathlib.Tactic.SplitIfs
import SettingsTree.Directory

/-!
# What saving does to a directory

A save writes a temporary file and moves it over the destination. If it goes through, the
destination holds the document and nothing is left of the temporary file. Every other file
is as it was, unless one stood under the name of the temporary file: that one is lost. So a
run of saves keeps to its destinations exactly if none of them meets such a file.
-/
namespace SettingsTree

structure Save where
  config : Config
  path : String

namespace Save

def apply (s : Save) (d : Directory) : Attempt Directory :=
  s.config.save d s.path

def destination? (s : Save) : Option String :=
  (Location.ofPath? s.path).bind Location.file?

/-- The file that is written first. -/
def temporary? (s : Save) : Option String :=
  (Location.ofPath? s.path).bind Location.temporary?

/-- What the save puts under a name, if it goes through. -/
def puts? (s : Save) (name : String) : Option ByteArray :=
  match s.config.toToml, s.temporary?, s.destination? with
  | .ok text, some _, some destination => if name = destination then some text.toUTF8 else none
  | _, _, _ => none

end Save

namespace Directory

def after (d : Directory) (saves : List Save) : Directory :=
  saves.foldl (fun d s => (s.apply d).state) d

@[simp] theorem after_nil (d : Directory) : d.after [] = d := rfl

@[simp] theorem after_cons (d : Directory) (s : Save) (rest : List Save) :
    d.after (s :: rest) = (s.apply d).state.after rest := rfl

/-- What the last of some saves to a name put there. -/
def latest? (name : String) : List Save → Option ByteArray
  | [] => none
  | s :: rest => (latest? name rest).or (s.puts? name)

end Directory

namespace Save
variable {s : Save} {d : Directory} {name : String}

/-- All that a save can do. -/
theorem apply_eq (s : Save) (d : Directory) :
    s.apply d =
      match s.config.toToml, s.temporary?, s.destination? with
      | .error fault, _, _ => .failed d fault
      | .ok _, none, _ => .failed d .fileAccess
      | .ok text, some temporary, none =>
          .failed (Table.insert temporary text.toUTF8 d) .fileAccess
      | .ok text, some temporary, some destination =>
          .done (Table.insert destination text.toUTF8
            (Table.erase temporary (Table.insert temporary text.toUTF8 d))) := by
  unfold apply Config.save Directory.save temporary? destination?
  cases s.config.toToml with
  | error fault => rfl
  | ok text =>
      cases Location.ofPath? s.path with
      | none => rfl
      | some location =>
          simp only [Option.bind_some]
          cases location.temporary? with
          | none => rfl
          | some temporary =>
              cases location.file? with
              | none => rfl
              | some destination => simp only [Directory.move, Table.find?_insert_self]

/-- A save goes through exactly if there is a document and the path allows for both files. -/
theorem fault_apply_eq_none :
    (s.apply d).fault = none ↔
      ∃ text temporary destination, s.config.toToml = .ok text ∧
        s.temporary? = some temporary ∧ s.destination? = some destination := by
  rw [apply_eq]
  cases s.config.toToml <;> cases s.temporary? <;> cases s.destination? <;>
    simp [Attempt.done, Attempt.failed]

theorem state_apply {text temporary destination : String} (hc : s.config.toToml = .ok text)
    (ht : s.temporary? = some temporary) (hd : s.destination? = some destination)
    (name : String) :
    Table.find? name (s.apply d).state =
      if name = destination then some text.toUTF8
      else if name = temporary then none else Table.find? name d := by
  rw [apply_eq, hc, ht, hd]
  simp only [Attempt.state_done, Table.find?_insert, Table.find?_erase]
  split_ifs <;> rfl

/-- Only the last file that was put under a name counts, as long as the save does not use the
name for its temporary file. -/
theorem find?_apply (h : s.temporary? = some name → s.destination? = some name) :
    Table.find? name (s.apply d).state = (s.puts? name).or (Table.find? name d) := by
  rw [apply_eq, puts?]
  cases s.config.toToml with
  | error fault => rfl
  | ok text =>
      cases ht : s.temporary? with
      | none => rfl
      | some temporary =>
          rw [ht] at h
          cases hd : s.destination? with
          | none =>
              rw [hd] at h
              have hne : name ≠ temporary := fun he => nomatch h (congrArg some he.symm)
              exact Table.find?_insert_of_ne hne _ _
          | some destination =>
              rw [hd] at h
              simp only [Attempt.state_done, Table.find?_insert, Table.find?_erase]
              by_cases hn : name = destination
              · simp [hn]
              · have hne : name ≠ temporary := fun he =>
                  hn (Option.some.inj (h (congrArg some he.symm))).symm
                simp [hn, hne]

/-- What every save does: it stores the document at its destination if it goes through, and
then no file but the temporary one can get lost; where there is no document it does nothing. -/
structure Lands (s : Save) (d : Directory) : Prop where
  stored : (s.apply d).fault = none → ∃ text, s.config.toToml = .ok text ∧
    (s.apply d).state.content? s.path = some text.toUTF8
  others : (s.apply d).fault = none → ∀ name, s.destination? ≠ some name →
    Table.find? name (s.apply d).state =
      if s.temporary? = some name then none else Table.find? name d
  refused : ∀ fault, s.config.toToml = .error fault → s.apply d = .failed d fault

/-- The save stores the document at its destination and touches nothing else. -/
structure Confined (s : Save) (d : Directory) : Prop extends s.Lands d where
  alone : (s.apply d).fault = none → ∀ name, s.destination? ≠ some name →
    Table.find? name (s.apply d).state = Table.find? name d

/-- If the save goes through, no other file than its destination stands under the name of its
temporary file. -/
def Clear (s : Save) (d : Directory) : Prop :=
  (s.apply d).fault = none → ∀ name, s.temporary? = some name → s.destination? ≠ some name →
    Table.find? name d = none

theorem lands (s : Save) (d : Directory) : s.Lands d where
  stored hf := by
    obtain ⟨text, temporary, destination, hc, ht, hd⟩ := fault_apply_eq_none.1 hf
    refine ⟨text, hc, ?_⟩
    show s.destination?.bind (fun name => Table.find? name (s.apply d).state) = _
    rw [hd, Option.bind_some, state_apply hc ht hd, if_pos rfl]
  others hf name hn := by
    obtain ⟨text, temporary, destination, hc, ht, hd⟩ := fault_apply_eq_none.1 hf
    have hne : name ≠ destination := fun he => hn (he ▸ hd)
    rw [state_apply hc ht hd, if_neg hne, ht]
    simp only [Option.some.injEq, eq_comm]
  refused fault hc := by rw [apply_eq, hc]

theorem confined_iff_clear : s.Confined d ↔ s.Clear d := by
  refine ⟨fun h hf name ht hn => ?_, fun h => ⟨s.lands d, fun hf name hn => ?_⟩⟩
  · rw [← h.alone hf name hn, h.others hf name hn, if_pos ht]
  · rw [(s.lands d).others hf name hn]
    split_ifs with ht
    · exact (h hf name ht hn).symm
    · rfl

end Save

namespace Directory

/-- A name that no save uses for a temporary file holds what the last save put there, or what
it held before all of them. -/
theorem find?_after {name : String} {saves : List Save}
    (h : ∀ s ∈ saves, s.temporary? = some name → s.destination? = some name) (d : Directory) :
    Table.find? name (d.after saves) = (latest? name saves).or (Table.find? name d) := by
  induction saves generalizing d with
  | nil => rfl
  | cons s rest ih =>
      have hrest := ih (fun s hs => h s (List.mem_cons_of_mem _ hs)) (s.apply d).state
      rw [after_cons, hrest, Save.find?_apply (h s List.mem_cons_self), latest?, Option.or_assoc]

/-- In a run of saves each one stores its document. They all keep to their destinations exactly
if every save that goes through finds no other file under the name of its temporary one. A name
that is not used for temporary files ends with what was last saved there. -/
theorem saves_confined_iff_clear (d : Directory) (saves : List Save) :
    ((∀ past s, past ++ [s] <+: saves → s.Confined (d.after past)) ↔
      ∀ past s, past ++ [s] <+: saves → s.Clear (d.after past)) ∧
    (∀ past s, past ++ [s] <+: saves → s.Lands (d.after past)) ∧
    ∀ name, (∀ s ∈ saves, s.temporary? = some name → s.destination? = some name) →
      Table.find? name (d.after saves) = (latest? name saves).or (Table.find? name d) :=
  ⟨forall₃_congr fun _ _ _ => Save.confined_iff_clear, fun past s _ => s.lands (d.after past),
    fun _ h => find?_after h d⟩

/-- A configuration with one setting, saved next to the file `app.tmp`. -/
def neighbour : Save :=
  ⟨.fresh ⟨[⟨.declared 0 0, "a", some (.bool true), .identity, false, none⟩], false⟩, "app.toml"⟩

/-- A file that happens to have the extension `tmp` is lost. -/
theorem save_loses_a_file :
    let d : Directory := [("app.tmp", "kept".toUTF8)]
    (neighbour.apply d).fault = none ∧ ¬neighbour.Confined d ∧
      Table.find? "app.tmp" d = some "kept".toUTF8 ∧ neighbour.destination? = some "app.toml" ∧
      (neighbour.apply d).state = [("app.toml", "a = true\n".toUTF8)] := by
  intro d
  have hdone : (neighbour.apply d).fault = none := rfl
  refine ⟨hdone, fun h => ?_, rfl, rfl, rfl⟩
  have hkept : none = Table.find? "app.tmp" d := h.alone hdone "app.tmp" (by decide)
  cases hkept

end Directory
end SettingsTree
