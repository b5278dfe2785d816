import SettingsTree.Schema.Basic
import Mathlib.Tactic.SplitIfs

/-!
# Changing definitions one by one

Schemas find the place of a definition by its name. A change of definitions that keeps their names
can therefore be made before they are declared or taken in, or afterwards.
-/
namespace SettingsTree

/-- The schema with every definition changed, not looking into groups. -/
def Schema.mapped (f : Definition → Definition) (s : Schema) : Schema :=
  ⟨s.definitions.map f, s.frozen⟩

section
variable {f : Definition → Definition} (hf : ∀ d, (f d).name = d.name)
include hf

namespace Definition

theorem names_map (ds : List Definition) : (ds.map f).map name = ds.map name := by
  rw [List.map_map]
  exact List.map_congr_left fun d _ => hf d

theorem find?_map (name : String) (ds : List Definition) :
    find? name (ds.map f) = (find? name ds).map f := by
  induction ds with
  | nil => rfl
  | cons d rest ih =>
      rw [List.map_cons, find?, find?, hf, ih]
      split_ifs <;> rfl

theorem insert_map (d : Definition) (ds : List Definition) :
    (f d).insert (ds.map f) = (d.insert ds).map f := by
  induction ds with
  | nil => rfl
  | cons old rest ih =>
      rw [List.map_cons, insert, insert, hf, hf, ih]
      split_ifs <;> rfl

theorem insertAll_map (theirs ours : List Definition) :
    insertAll (theirs.map f) (ours.map f) = (insertAll theirs ours).map f := by
  induction theirs generalizing ours with
  | nil => rfl
  | cons d rest ih =>
      have hstep := ih (d.insert ours)
      rw [← insert_map hf] at hstep
      exact hstep

end Definition

namespace Schema

theorem declare_mapped (s : Schema) (d : Definition) :
    (s.mapped f).declare (f d) = (s.declare d).into (mapped f) := by
  simp only [declare, mapped, hf, Definition.insert_map hf]
  split_ifs <;> rfl

theorem incorporate_mapped (s other : Schema) :
    (s.mapped f).incorporate (other.mapped f) = (s.incorporate other).into (mapped f) := by
  obtain ⟨ours, frozen⟩ := s
  obtain ⟨theirs, mark⟩ := other
  have hall := Definition.insertAll_map hf theirs ours
  cases frozen with
  | false => exact congrArg (fun ds => Attempt.done (Schema.mk ds false)) hall
  | true =>
      cases theirs with
      | nil => rfl
      | cons first rest =>
          simp only [incorporate, mapped, List.map_cons, hf, Attempt.into, Attempt.failed]

end Schema
end
end SettingsTree
