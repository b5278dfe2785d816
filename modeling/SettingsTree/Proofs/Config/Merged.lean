import SettingsTree.Constructor.Catalogue
import SettingsTree.Proofs.Config.Copies
import SettingsTree.Proofs.Schema.Heap
import SettingsTree.Proofs.Schema.Merging

/-!
# Configurations of merged schemas

A configuration that is rebound to the merge of its own schema with another one keeps every
value that the other schema spares. The merge has new definitions for all groups that both
schemas have, but rebinding asks only whether the single settings inside are the same. A
setting that the other schema brings reads as its default, unless the very same setting was
there already.
-/
namespace SettingsTree

theorem Scope.proper_run (supply : Supply) {script : List Declaration}
    (h : Declaration.TakeIn (fun _ => False) script) :
    ((start supply).run script).state.schema.Proper := by
  have hreserves : Heap.Reserves (fun _ => none) supply := fun _ _ => rfl
  have hsupplied : Supplied (fun _ => none) (start supply) ((start supply).run script) :=
    supplied_run script Schema.all_empty hreserves (TakeIn.mono (fun _ => False.elim) h)
  obtain ⟨_, _, hs⟩ := hsupplied
  exact hs.proper

namespace Config

variable {c : Config} {theirs : Schema} {path : Path} {d : Definition}

/-- The merge has the definition of the first schema at a spared path, so the value stays. -/
theorem Shaped.getAt_rebind_merge_of_spared (hc : c.Shaped) (hs : c.schema.Proper)
    (ht : theirs.Proper) (hd : c.schema.at? path = some d) (hg : d.group = none)
    (hp : theirs.Spares path) :
    (c.rebind (c.schema.merge theirs)).getAt path = c.getAt path := by
  have hmerged : (c.schema.merge theirs).at? path = some d :=
    (Schema.at?_merge_of_spared ht hp).trans hd
  have hproper : (c.schema.merge theirs).Proper := Schema.All.merge (fun _ _ _ _ => trivial) hs ht
  refine (hc.getAt_rebind hproper hmerged hg fun e he _ _ => ?_).1 hd
  exact Option.some.inj (he.symm.trans hd)

/-- A single setting of the second schema stands in the merge as it is. What is read there
hangs on whether the first schema has the very same setting. -/
theorem Shaped.getAt_rebind_merge_of_declared (hc : c.Shaped) (hs : c.schema.Proper)
    (ht : theirs.Proper) (hd : theirs.at? path = some d) (hg : d.group = none) :
    (c.schema.at? path = some d →
        (c.rebind (c.schema.merge theirs)).getAt path = c.getAt path) ∧
      ((∀ e, c.schema.at? path = some e → e.stamp ≠ d.stamp) →
        (c.rebind (c.schema.merge theirs)).getAt path = d.resolve none) := by
  have hmerged : (c.schema.merge theirs).at? path = some d := by
    rw [Schema.at?_merge_of_declared ht hd, Definition.joined_of_single hg]
  have hproper : (c.schema.merge theirs).Proper := Schema.All.merge (fun _ _ _ _ => trivial) hs ht
  constructor
  · intro hold
    refine (hc.getAt_rebind hproper hmerged hg fun e he _ _ => ?_).1 hold
    exact Option.some.inj (he.symm.trans hold)
  · intro hother
    refine (hc.getAt_rebind hproper hmerged hg fun e he _ hstamp => ?_).2 fun hold => ?_
    · exact absurd hstamp (hother e he)
    · exact hother d hold rfl

/-- Rebinding to the merge of the own schema with another one loses no value that the other
schema spares. A single setting of the other schema reads as before if it is the very same
setting, and as its default if another definition was there or none. -/
theorem rebind_merge_loses_nothing (hc : c.Shaped) (hs : c.schema.Proper) (ht : theirs.Proper) :
    let extended := c.rebind (c.schema.merge theirs)
    (∀ path d, c.schema.at? path = some d → d.group = none → theirs.Spares path →
      extended.getAt path = c.getAt path) ∧
    ∀ path d, theirs.at? path = some d → d.group = none →
      (c.schema.at? path = some d → extended.getAt path = c.getAt path) ∧
      ((∀ e, c.schema.at? path = some e → e.stamp ≠ d.stamp) →
        extended.getAt path = d.resolve none) :=
  ⟨fun _ _ hd hg hp => hc.getAt_rebind_merge_of_spared hs ht hd hg hp,
    fun _ _ hd hg => hc.getAt_rebind_merge_of_declared hs ht hd hg⟩

/-- A setting `u` two groups deep, and settings `x` and `b` further up. -/
def layered : Schema :=
  ((Scope.start ⟨0, 0⟩).run
    [.nested "g" {} [.nested "h" {} [.setting "u" { construct := some .wrap }], .setting "x" {}],
      .setting "b" { construct := some .wrap }]).state.schema

/-- New settings in both groups, and another setting `b`. -/
def overlay : Schema :=
  ((Scope.start ⟨1, 0⟩).run
    [.nested "g" {} [.setting "y" {}, .nested "h" {} [.setting "v" { fallback := some .unit }]],
      .setting "b" { fallback := some (.char 'b') }]).state.schema

theorem proper_layered : layered.Proper :=
  Scope.proper_run _ ⟨⟨⟨trivial, trivial⟩, trivial, trivial⟩, trivial, trivial⟩

theorem proper_overlay : overlay.Proper :=
  Scope.proper_run _ ⟨⟨trivial, ⟨trivial, trivial⟩, trivial⟩, trivial, trivial⟩

/-- `layered` with a value assigned two groups deep and another at the top. -/
def filled : Config :=
  (fresh layered).after [.edit ⟨["g", "h"], .set "u" (.bool true)⟩, .edit ⟨[], .set "b" .unit⟩]

/-- The assigned value at `g.h.u` outlives the merge, which has another group at `g`. The value
of `b` does not, since the merge has another setting there. -/
theorem rebind_merge_loses_nothing_overlay :
    (filled.Shaped ∧ filled.schema.Proper ∧ overlay.Proper) ∧
      (filled.schema.merge overlay).at? ⟨[], "g"⟩ ≠ filled.schema.at? ⟨[], "g"⟩ ∧
      (filled.rebind (filled.schema.merge overlay)).getAt ⟨["g", "h"], "u"⟩ =
        .ok (.seq [.bool true]) ∧
      (filled.rebind (filled.schema.merge overlay)).getAt ⟨["g", "h"], "v"⟩ = .ok .unit ∧
      filled.getAt ⟨[], "b"⟩ = .ok (.seq [.unit]) ∧
      (filled.rebind (filled.schema.merge overlay)).getAt ⟨[], "b"⟩ = .ok (.char 'b') := by
  have hschema : filled.schema = layered := rfl
  have hshaped : filled.Shaped :=
    (wellFormed_after (wellFormed_fresh proper_layered) (by simp [Step.Proper])).shaped
  have hproper : filled.schema.Proper := hschema ▸ proper_layered
  obtain ⟨hkept, hbrought⟩ := rebind_merge_loses_nothing hshaped hproper proper_overlay
  obtain ⟨u, hu, hsingle, hread⟩ : ∃ u, filled.schema.at? ⟨["g", "h"], "u"⟩ = some u ∧
      u.group = none ∧ filled.getAt ⟨["g", "h"], "u"⟩ = .ok (.seq [.bool true]) :=
    ⟨_, rfl, rfl, rfl⟩
  obtain ⟨v, hv, hvs, hvr⟩ : ∃ v, overlay.at? ⟨["g", "h"], "v"⟩ = some v ∧ v.group = none ∧
      v.resolve none = .ok .unit := ⟨_, rfl, rfl, rfl⟩
  obtain ⟨b, hb, hbs, hbr⟩ : ∃ b, overlay.at? ⟨[], "b"⟩ = some b ∧ b.group = none ∧
      b.resolve none = .ok (.char 'b') := ⟨_, rfl, rfl, rfl⟩
  have hspared : overlay.Spares ⟨["g", "h"], "u"⟩ := by
    refine Schema.spares_cons.2 fun g hg => ?_
    obtain rfl := Option.some.inj hg
    refine ⟨_, rfl, Schema.spares_cons.2 fun h hh => ?_⟩
    obtain rfl := Option.some.inj hh
    exact ⟨_, rfl, Schema.spares_nil.2 rfl⟩
  have hold : filled.schema.at? ⟨["g", "h"], "v"⟩ = none := rfl
  have hother : ∀ e, filled.schema.at? ⟨[], "b"⟩ = some e → e.stamp ≠ b.stamp := by
    intro e he
    obtain rfl := Option.some.inj he
    obtain rfl := Option.some.inj hb
    decide
  refine ⟨⟨hshaped, hproper, proper_overlay⟩, ?_, ?_, ?_, rfl, ?_⟩
  · intro hsame
    have hstamps := congrArg (Option.map Definition.stamp) hsame
    cases hstamps
  · exact (hkept _ u hu hsingle hspared).trans hread
  · exact ((hbrought _ v hv hvs).2 (by simp [hold])).trans hvr
  · exact ((hbrought _ b hb hbs).2 hother).trans hbr

end Config
end SettingsTree
