import SettingsTree.Constructor.Catalogue
import SettingsTree.Proofs.Stage.Preview
import SettingsTree.Proofs.World.Genuine

/-!
# Previews of staged batches

A batch may be staged for any configuration that a run leaves to be read, frozen or not, and
whatever was put in the place of its groups. Requests that are refused are part of the batch,
and so are scopes that are entered and left empty.
-/
namespace SettingsTree

open Config

namespace World

theorem exists_sits_after {ops : List Op} {target : Config} (hops : empty.Drawn ops)
    (ht : (empty.after ops).Reads target) (requests : List Staging) :
    ∃ heap, ((Stage.start target).after requests).Sits heap := by
  obtain ⟨heap, hstamped, hgenuine⟩ := genuine_of_reads hops ht
  have htarget := Stage.target_after target requests
  exact ⟨heap, Stage.fits_after target requests, htarget.symm ▸ hstamped, htarget.symm ▸ hgenuine⟩

/-- What a batch shows is what it commits to, under every name and as a whole, in every scope.
A scope in which nothing waits commits to the duplicate of its group. -/
theorem commit_reads_as_previewed {ops : List Op} {target : Config} (hops : empty.Drawn ops)
    (ht : (empty.after ops).Reads target) (requests : List Staging) :
    let batch := (Stage.start target).after requests
    (∀ c, batch.commit = .ok c → ∀ walk inner, batch.descend walk = .ok inner →
      ∃ made, c.descend walk = .ok made ∧ inner.commit = .ok made ∧
        (∀ name, inner.get name = made.value name) ∧ inner.toValue = made.toValue) ∧
      ∀ walk inner, batch.descend walk = .ok inner → inner.isEmpty = true →
        ∃ group, target.descend walk = .ok group ∧ inner.commit = .ok group.duplicate := by
  intro batch
  obtain ⟨heap, hbatch⟩ := exists_sits_after hops ht requests
  refine ⟨fun c hc walk inner hd => ?_, fun walk inner hd hempty => ?_⟩
  · have hcommits := Stage.commits_of_commit hbatch.fits hbatch.stamped.ordered hc
    obtain ⟨made, hmade, hinner⟩ := hcommits.descend hbatch hd
    obtain ⟨hfits, hstamped, hgenuine⟩ := (hbatch.descend hd).1
    exact ⟨made, hmade, (Stage.commit_eq_ok_iff hfits hstamped.ordered).2 hinner,
      hinner.get_eq hfits hstamped.known hgenuine,
      hinner.toValue_eq hfits hstamped.known hgenuine⟩
  · obtain ⟨hsits, hgroup⟩ := hbatch.descend hd
    rw [Stage.target_after] at hgroup
    have hcommits := Stage.commits_of_isEmpty hempty hsits.fits hsits.stamped.ordered
    exact ⟨inner.target, hgroup,
      (Stage.commit_eq_ok_iff hsits.fits hsits.stamped.ordered).2 hcommits⟩

/-- A schema with a setting that must be given, inside two groups. -/
def required : Schema :=
  (Schema.Making.script .empty [.setting "a" { construct := some .wrap },
    .nested "g" {} [.nested "h" {} [.setting "x" { construct := some .require }]]]).apply 0

def settled : List Op :=
  [.schema (.script .empty [.setting "a" { construct := some .wrap },
      .nested "g" {} [.nested "h" {} [.setting "x" { construct := some .require }]]]),
    .bind required, .act 1 .finalize]

/-- A value, a scope that is entered for nothing, and a request that is refused. -/
def tentative : List Staging :=
  [⟨[], .set "a" (.bool true)⟩, ⟨["g", "h"], .visit⟩, ⟨["g"], .set "h" .unit⟩]

/-- The staged value is shown as it is constructed, and the missing one is missed in the scope,
before the commit and after it. The scope that was entered is empty. -/
theorem commit_reads_as_previewed_settled :
    ∃ target c inner made,
      (empty.Drawn settled ∧ (empty.after settled).Reads target ∧ target.frozen = true ∧
        ((Stage.start target).after tentative).commit = .ok c ∧
        ((Stage.start target).after tentative).descend ["g", "h"] = .ok inner ∧
        inner.isEmpty = true ∧ c.descend ["g", "h"] = .ok made) ∧
      ((Stage.start target).after tentative).get "a" = c.value "a" ∧
        c.value "a" = .ok (.seq [.bool true]) ∧
      inner.get "x" = made.value "x" ∧
        made.value "x" = .error (.rejected "x" "value required") ∧
      ((Stage.start target).after tentative).toValue = c.toValue ∧
      ∃ group, target.descend ["g", "h"] = .ok group ∧ inner.commit = .ok group.duplicate := by
  have hops : empty.Drawn settled := ⟨⟨.empty, trivial, ⟨⟨trivial, trivial⟩, trivial⟩,
    trivial⟩, .held (k := 0) rfl, trivial, trivial⟩
  have hrun : ∃ target c inner made,
      (empty.after settled).Reads target ∧ target.frozen = true ∧
        ((Stage.start target).after tentative).commit = .ok c ∧
        ((Stage.start target).after tentative).descend ["g", "h"] = .ok inner ∧
        inner.isEmpty = true ∧ c.descend ["g", "h"] = .ok made ∧
        c.value "a" = .ok (.seq [.bool true]) ∧
        made.value "x" = .error (.rejected "x" "value required") :=
    ⟨_, _, _, _, ⟨1, _, _, [], rfl, rfl, rfl⟩, rfl, rfl, rfl, rfl, rfl, rfl, rfl⟩
  obtain ⟨target, c, inner, made, ht, hz, hc, hinner, hempty, hmade, ha, hx⟩ := hrun
  obtain ⟨hshown, hidle⟩ := commit_reads_as_previewed hops ht tentative
  obtain ⟨whole, hwhole, _, hget, hvalue⟩ := hshown c hc [] _ rfl
  obtain rfl := Except.ok.inj hwhole
  obtain ⟨group, hgroup, _, hinside, _⟩ := hshown c hc ["g", "h"] inner hinner
  obtain rfl := Except.ok.inj (hmade.symm.trans hgroup)
  exact ⟨target, c, inner, made, ⟨hops, ht, hz, hc, hinner, hempty, hmade⟩, hget "a", ha,
    hinside "x", hx, hvalue, hidle ["g", "h"] inner hinner hempty⟩

end World
end SettingsTree
