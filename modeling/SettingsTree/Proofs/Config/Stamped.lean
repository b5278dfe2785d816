import SettingsTree.Proofs.Config.Bindings
import SettingsTree.Proofs.Schema.Heap

/-!
# Configurations whose schemas stand in a heap

All schemas inside a configuration stand in one heap, whether they fit its own schema or
not. Every call keeps this, and so does putting any other such configuration in the place of
a group: this is what is left of a configuration's good form when foreign ones are put into
it.
-/
namespace SettingsTree.Config

/-- The schema of the configuration stands in the heap, and so do those of all groups inside. -/
inductive Known (heap : Heap) : Config → Prop where
  | intro (c : Config) (here : c.schema.StandsIn heap)
      (inside : ∀ name inner, Table.find? name c.groups = some inner → Known heap inner) :
      Known heap c

variable {heap heap' : Heap} {c c' inner made other : Config} {s : Schema} {name : String}

theorem known_iff_binds : c.Known heap ↔ c.Binds (Definition.StandsIn heap) := by
  constructor
  all_goals
    intro h
    induction h with
    | intro c hs _ ih => exact .intro c hs ih

namespace Known

theorem binds (h : c.Known heap) : c.Binds (Definition.StandsIn heap) := known_iff_binds.1 h

theorem here (h : c.Known heap) : c.schema.StandsIn heap := h.binds.here

theorem inside (h : c.Known heap) (hf : Table.find? name c.groups = some inner) :
    inner.Known heap :=
  known_iff_binds.2 (h.binds.inside hf)

theorem mono (h : c.Known heap) (hle : ∀ stamp d, heap stamp = some d → heap' stamp = some d) :
    c.Known heap' :=
  known_iff_binds.2 (h.binds.mono fun _ hd hg => hle _ _ (hd hg))

theorem duplicate (h : c.Known heap) : c.duplicate.Known heap :=
  known_iff_binds.2 h.binds.duplicate

theorem changes {journal : List Entry} (h : c.Known heap) (m : Changes c c' journal) :
    c'.Known heap :=
  known_iff_binds.2 (h.binds.changes m)

theorem descend {walk : List String} (h : c.Known heap) (hd : c.descend walk = .ok inner) :
    inner.Known heap :=
  known_iff_binds.2 (h.binds.descend hd)

theorem replace (walk : List String) (h : c.Known heap) (ho : other.Known heap) :
    (c.within walk fun _ => .done other).state.Known heap :=
  known_iff_binds.2 (h.binds.replace walk ho.binds)

theorem copy {k : Copy} (h : c.Known heap) (ho : c.Ordered) (hk : k.apply c = .ok made)
    (hs : ∀ s, k.making = .rebind s → s.StandsIn heap) : made.Known heap :=
  known_iff_binds.2 (h.binds.copy ho hk hs)

end Known

theorem known_fresh (hs : s.StandsIn heap) : (fresh s).Known heap :=
  known_iff_binds.2 (binds_fresh hs)

theorem known_rebind (c : Config) (hs : s.StandsIn heap) : (c.rebind s).Known heap :=
  known_iff_binds.2 (binds_rebind c hs)

/-- The schemas of the configuration stand in the heap, and its names are listed in order. -/
structure Stamped (heap : Heap) (c : Config) : Prop where
  known : c.Known heap
  ordered : c.Ordered

namespace Stamped

theorem mono (h : c.Stamped heap) (hle : ∀ stamp d, heap stamp = some d → heap' stamp = some d) :
    c.Stamped heap' :=
  ⟨h.known.mono hle, h.ordered⟩

theorem fresh (hs : s.StandsIn heap) : (fresh s).Stamped heap :=
  ⟨known_fresh hs, ordered_fresh s⟩

theorem rebind (c : Config) (hs : s.StandsIn heap) : (c.rebind s).Stamped heap :=
  ⟨known_rebind c hs, ordered_rebind c s⟩

theorem duplicate (h : c.Stamped heap) : c.duplicate.Stamped heap :=
  ⟨h.known.duplicate, h.ordered.duplicate⟩

theorem changes {journal : List Entry} (h : c.Stamped heap) (m : Changes c c' journal) :
    c'.Stamped heap :=
  ⟨h.known.changes m, h.ordered.changes m⟩

theorem descend {walk : List String} (h : c.Stamped heap) (hd : c.descend walk = .ok inner) :
    inner.Stamped heap :=
  ⟨h.known.descend hd, h.ordered.descend hd⟩

theorem replace (walk : List String) (h : c.Stamped heap) (ho : other.Stamped heap) :
    (c.within walk fun _ => .done other).state.Stamped heap :=
  ⟨h.known.replace walk ho.known, h.ordered.replace walk ho.ordered⟩

theorem commits {stage : Stage} (h : stage.target.Stamped heap) (hs : stage.Fits)
    (hc : stage.Commits c) : c.Stamped heap :=
  ⟨known_iff_binds.2 (.commits hc hs h.known.binds), hc.ordered h.ordered hs⟩

theorem copy {k : Copy} (h : c.Stamped heap) (hk : k.apply c = .ok made)
    (hs : ∀ s, k.making = .rebind s → s.StandsIn heap) : made.Stamped heap :=
  ⟨h.known.copy h.ordered hk hs, ordered_copy k h.ordered hk⟩

end Stamped

end SettingsTree.Config
