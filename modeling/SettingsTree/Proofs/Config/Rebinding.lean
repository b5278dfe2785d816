import SettingsTree.Constructor.Catalogue
import SettingsTree.Proofs.Config.Copies
import SettingsTree.Proofs.Paths
import SettingsTree.Proofs.Schema.Heap

/-!
# Rebinding, path by path

A rebound configuration reads as before wherever both schemas have the very same single setting,
and as the default of the new setting everywhere else. What became of the groups above it makes
no difference. Rebinding a second time to the same schema changes nothing any more.

Which setting a stamp stands for is settled by the heap in which both schemas stand.
-/
namespace SettingsTree

namespace Schema
variable {heap : Heap} {s t inner inner' : Schema} {name : String} {path : Path}
  {d outer outer' : Definition}

/-- The very same single setting is declared at the path in both schemas. -/
def ShareAt (s t : Schema) (path : Path) : Prop :=
  ∃ d e, s.at? path = some d ∧ t.at? path = some e ∧ d.group = none ∧ e.group = none ∧
    d.stamp = e.stamp

theorem shareAt_iff (hs : s.StandsIn heap) (ht : t.StandsIn heap) (hd : t.at? path = some d)
    (hg : d.group = none) : s.ShareAt t path ↔ s.at? path = some d := by
  constructor
  · rintro ⟨e, e', he, he', heg, heg', hstamp⟩
    obtain rfl := Option.some.inj (hd.symm.trans he')
    obtain rfl := Definition.StandsIn.eq_of_stamp (hs.at? he) (ht.at? hd) heg hg hstamp
    exact he
  · intro he
    exact ⟨d, d, he, hd, hg, hg, rfl⟩

/-- Inside a group of both schemas it does not matter whether the groups are the same. -/
theorem shareAt_under (hl : s.lookup name = some outer) (hg : outer.group = some inner)
    (hl' : t.lookup name = some outer') (hg' : outer'.group = some inner') :
    s.ShareAt t (path.under name) ↔ inner.ShareAt inner' path := by
  rw [ShareAt, Path.under, at?_of_group hl hg, at?_of_group hl' hg']
  rfl

end Schema

namespace Config
variable {heap : Heap} {c : Config} {s : Schema} {path : Path} {d : Definition}

theorem Shaped.getAt_rebind_of_shareAt (hc : c.Shaped) (hold : c.schema.StandsIn heap)
    (hnew : s.StandsIn heap) (h : c.schema.ShareAt s path) :
    (c.rebind s).getAt path = c.getAt path := by
  obtain ⟨_, d, _, hd, _, hg, _⟩ := id h
  have hsame := (Schema.shareAt_iff hold hnew hd hg).1 h
  refine (hc.getAt_rebind hnew.proper hd hg fun e he _ _ => ?_).1 hsame
  exact Option.some.inj (he.symm.trans hsame)

theorem Shaped.getAt_rebind_of_not_shareAt (hc : c.Shaped) (hold : c.schema.StandsIn heap)
    (hnew : s.StandsIn heap) (hd : s.at? path = some d) (hg : d.group = none)
    (h : ¬c.schema.ShareAt s path) : (c.rebind s).getAt path = d.resolve none := by
  rw [Schema.shareAt_iff hold hnew hd hg] at h
  refine (hc.getAt_rebind hnew.proper hd hg fun e he heg hstamp => ?_).2 h
  exact Definition.StandsIn.eq_of_stamp (hold.at? he) (hnew.at? hd) heg hg hstamp

theorem wellFormed_rebind (hs : s.Proper) (c : Config) : (c.rebind s).WellFormed :=
  ⟨shaped_rebind hs c, ordered_rebind c s⟩

theorem rebind_rebind (hs : s.Proper) (c : Config) : (c.rebind s).rebind s = c.rebind s := by
  have h := (wellFormed_rebind hs c).rebind_self
  rw [schema_rebind] at h
  exact h hs

/-- A rebound configuration reads as before exactly where the very same single setting was
declared before, also inside groups that were declared anew, and as the default everywhere else.
Rebinding to the own schema changes nothing, a fresh configuration stays fresh, and rebinding
twice is rebinding once. -/
theorem getAt_rebind_eq_kept_or_default (hc : c.WellFormed) (hold : c.schema.StandsIn heap)
    (hnew : s.StandsIn heap) :
    (∀ path d, s.at? path = some d → d.group = none →
      (c.schema.ShareAt s path → (c.rebind s).getAt path = c.getAt path) ∧
      (¬c.schema.ShareAt s path → (c.rebind s).getAt path = d.resolve none)) ∧
    (∀ name outer outer' inner inner', c.schema.lookup name = some outer →
      outer.group = some inner → s.lookup name = some outer' → outer'.group = some inner' →
      ∀ path, inner.ShareAt inner' path →
        (c.rebind s).getAt (path.under name) = c.getAt (path.under name)) ∧
    c.rebind c.schema = c ∧
    (∀ first, (fresh first).rebind s = fresh s) ∧
    (c.rebind s).rebind s = c.rebind s := by
  refine ⟨fun path d hd hg => ⟨?_, ?_⟩, ?_, hc.rebind_self hold.proper,
    fun first => rebind_fresh first s, rebind_rebind hnew.proper c⟩
  · exact hc.shaped.getAt_rebind_of_shareAt hold hnew
  · exact hc.shaped.getAt_rebind_of_not_shareAt hold hnew hd hg
  · intro name outer outer' inner inner' hl hg hl' hg' path h
    exact hc.shaped.getAt_rebind_of_shareAt hold hnew ((Schema.shareAt_under hl hg hl' hg').2 h)

def firstScript : List Declaration :=
  [.nested "g" {} [.setting "x" { construct := some .wrap }, .setting "y" {}],
    .nested "h" {} [.setting "u" {}], .setting "a" { construct := some .wrap }, .setting "b" {}]

def older : Schema :=
  ((Scope.start ⟨0, 0⟩).run firstScript).state.schema

/-- The settings of the first group of `older`. -/
def carried : Schema :=
  (older.group? "g").getD .empty

/-- Everything is declared anew: the first group takes in what it was before and replaces one
setting of it, a setting keeps its content, and a group and a setting trade places. -/
def secondScript : List Declaration :=
  [.nested "g" {} [.inclusion carried, .setting "y" {}],
    .setting "a" { construct := some .wrap }, .setting "h" {}, .nested "b" {} [.setting "v" {}]]

def newer : Schema :=
  ((⟨older, ⟨1, 0⟩⟩ : Scope).run secondScript).state.schema

/-- The stamps of both schemas were given out by two authors. -/
theorem exists_heap_older_newer : ∃ heap, older.StandsIn heap ∧ newer.StandsIn heap := by
  have hnone : Heap.Reserves (fun _ => none) ⟨0, 0⟩ := fun _ _ => rfl
  have hfirst : Scope.Supplied (fun _ => none) (.start ⟨0, 0⟩)
      ((Scope.start ⟨0, 0⟩).run firstScript) :=
    Scope.supplied_run firstScript Schema.all_empty hnone
      ⟨⟨trivial, trivial, trivial⟩, ⟨trivial, trivial⟩, trivial, trivial, trivial⟩
  obtain ⟨heap, hgrown, holder⟩ := hfirst
  have hreserves : heap.Reserves ⟨1, 0⟩ := by
    intro n _
    cases hd : heap (.declared 1 n) with
    | none => rfl
    | some d =>
        rcases hgrown.fresh _ d hd with hn | ⟨m, hm, _⟩
        · cases hn
        · cases hm
  have hgroup : older.group? "g" = some carried := rfl
  have hcarried : carried.StandsIn heap := Schema.All.group holder hgroup
  have hsecond : Scope.Supplied heap ⟨older, ⟨1, 0⟩⟩
      ((⟨older, ⟨1, 0⟩⟩ : Scope).run secondScript) :=
    Scope.supplied_run secondScript holder hreserves
      ⟨⟨hcarried, trivial, trivial⟩, trivial, trivial, ⟨trivial, trivial⟩, trivial⟩
  obtain ⟨heap', hgrown', hnewer⟩ := hsecond
  exact ⟨heap', hgrown'.standsIn holder, hnewer⟩

/-- Every single setting of `older` has a value. -/
def laden : Config :=
  (fresh older).after [.edit ⟨["g"], .set "x" .unit⟩, .edit ⟨["g"], .set "y" .unit⟩,
    .edit ⟨["h"], .set "u" .unit⟩, .edit ⟨[], .set "a" .unit⟩, .edit ⟨[], .set "b" .unit⟩]

/-- Only the value at `g.x` is left, although `g` is another group now. -/
theorem getAt_rebind_eq_kept_or_default_laden :
    ∃ heap, (laden.WellFormed ∧ laden.schema.StandsIn heap ∧ newer.StandsIn heap) ∧
      newer.at? ⟨[], "g"⟩ ≠ laden.schema.at? ⟨[], "g"⟩ ∧
      (laden.rebind newer).getAt ⟨["g"], "x"⟩ = .ok (.seq [.unit]) ∧
      (laden.rebind newer).getAt ⟨["g"], "y"⟩ = .ok .nothing ∧
      (laden.rebind newer).getAt ⟨[], "a"⟩ = .ok (.seq [.nothing]) ∧
      (laden.rebind newer).getAt ⟨[], "h"⟩ = .ok .nothing ∧
      (laden.rebind newer).getAt ⟨["b"], "v"⟩ = .ok .nothing ∧
      (laden.rebind newer).rebind newer = laden.rebind newer := by
  obtain ⟨heap, holder, hnewer⟩ := exists_heap_older_newer
  have hladen : laden.WellFormed :=
    wellFormed_after (wellFormed_fresh holder.proper) (by simp [Step.Proper])
  have hschema : laden.schema = older := rfl
  have hknown : laden.schema.StandsIn heap := hschema ▸ holder
  obtain ⟨hpaths, _, _, _, htwice⟩ := getAt_rebind_eq_kept_or_default hladen hknown hnewer
  have hkept : (laden.rebind newer).getAt ⟨["g"], "x"⟩ = laden.getAt ⟨["g"], "x"⟩ :=
    (hpaths ⟨["g"], "x"⟩ _ rfl rfl).1 ⟨_, _, rfl, rfl, rfl, rfl, rfl⟩
  have hanew : ¬laden.schema.ShareAt newer ⟨[], "a"⟩ := by
    rintro ⟨d, e, hd, he, _, _, hstamp⟩
    obtain rfl := Option.some.inj hd
    obtain rfl := Option.some.inj he
    exact absurd hstamp (by decide)
  have hdropped : (laden.rebind newer).getAt ⟨[], "a"⟩ = .ok (.seq [.nothing]) :=
    (hpaths ⟨[], "a"⟩ _ rfl rfl).2 hanew
  refine ⟨heap, ⟨hladen, hknown, hnewer⟩, fun hsame => ?_, hkept.trans rfl, rfl, hdropped, rfl,
    rfl, htwice⟩
  have hstamps := congrArg (Option.map Definition.stamp) hsame
  cases hstamps

end Config
end SettingsTree
