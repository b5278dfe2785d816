import SettingsTree.Proofs.Schema.Statements

/-!
# The heap of definitions

A heap lists under each stamp the single setting that was declared with it. As long
as every definition of every schema stands in one heap, a stamp says which definition
is meant. Declarations take stamps that were not given out before, so the heap only
grows: `Heap.Grows` is what a script does to it. The definitions that a script takes
in must stand in the heap already.
-/
namespace SettingsTree

/-- The single settings under the stamps they were declared with. -/
abbrev Heap := Stamp → Option Definition

/-- The definition stands in the heap under its own stamp, unless it is a group. -/
def Definition.StandsIn (heap : Heap) (d : Definition) : Prop :=
  d.group = none → heap d.stamp = some d

/-- Every single setting of the schema stands in the heap, at every depth, and no name
is listed twice. -/
abbrev Schema.StandsIn (heap : Heap) (s : Schema) : Prop :=
  s.All (Definition.StandsIn heap)

/-- Single settings of one heap with the same stamp are the same. -/
theorem Definition.StandsIn.eq_of_stamp {heap : Heap} {d e : Definition} (hd : d.StandsIn heap)
    (he : e.StandsIn heap) (hdg : d.group = none) (heg : e.group = none)
    (hs : d.stamp = e.stamp) : d = e := by
  have hheap : heap e.stamp = some d := hs ▸ hd hdg
  exact Option.some.inj (hheap.symm.trans (he heg))

namespace Heap

def add (heap : Heap) (d : Definition) : Heap := fun stamp =>
  if stamp = d.stamp then some d else heap stamp

/-- No stamp that the supply is still to give out is in use. -/
def Reserves (heap : Heap) (supply : Supply) : Prop :=
  ∀ n, supply.next ≤ n → heap (.declared supply.author n) = none

/-- The second heap has what the first one has, and otherwise only definitions with the
stamps that were given out between the two supplies. -/
structure Grows (heap heap' : Heap) (before after : Supply) : Prop where
  kept : ∀ stamp d, heap stamp = some d → heap' stamp = some d
  fresh : ∀ stamp d, heap' stamp = some d → heap stamp = some d ∨
    ∃ n, stamp = .declared before.author n ∧ before.next ≤ n ∧ n < after.next
  author : after.author = before.author
  next : before.next ≤ after.next

variable {heap heap' heap'' : Heap} {before middle after : Supply}

theorem Grows.refl (heap : Heap) (supply : Supply) : Grows heap heap supply supply :=
  ⟨fun _ _ h => h, fun _ _ h => .inl h, rfl, Nat.le_refl _⟩

theorem Grows.trans (h : Grows heap heap' before middle) (h' : Grows heap' heap'' middle after) :
    Grows heap heap'' before after := by
  have hle := h.next
  have hle' := h'.next
  refine ⟨fun stamp d hd => h'.kept stamp d (h.kept stamp d hd), fun stamp d hd => ?_,
    h'.author.trans h.author, Nat.le_trans hle hle'⟩
  rcases h'.fresh stamp d hd with hd | ⟨n, rfl, hn, hlt⟩
  · rcases h.fresh stamp d hd with hd | ⟨n, rfl, hn, hlt⟩
    · exact .inl hd
    · exact .inr ⟨n, rfl, hn, by omega⟩
  · exact .inr ⟨n, by rw [h.author], by omega, hlt⟩

theorem Grows.advance (heap : Heap) (supply : Supply) : Grows heap heap supply supply.advance :=
  ⟨fun _ _ h => h, fun _ _ h => .inl h, rfl, Nat.le_succ _⟩

theorem Grows.reserves (h : Grows heap heap' before after) (hr : heap.Reserves before) :
    heap'.Reserves after := by
  intro n hn
  cases hd : heap' (.declared after.author n) with
  | none => rfl
  | some d =>
      have hle := h.next
      rcases h.fresh _ d hd with hold | ⟨m, hm, _, hlt⟩
      · rw [h.author, hr n (by omega)] at hold
        cases hold
      · have hmn := (Stamp.declared.inj hm).2
        omega

theorem Grows.standsIn (h : Grows heap heap' before after) {s : Schema} (hs : s.StandsIn heap) :
    s.StandsIn heap' :=
  hs.mono fun d hd hg => h.kept d.stamp d (hd hg)

theorem grows_add {supply : Supply} {d : Definition} (hr : heap.Reserves supply)
    (hd : d.stamp = supply.stamp) : Grows heap (heap.add d) supply supply.advance := by
  refine ⟨fun stamp e he => ?_, fun stamp e he => ?_, rfl, Nat.le_succ _⟩
  · refine (if_neg fun hs => ?_).trans he
    rw [hs, hd, Supply.stamp, hr supply.next (Nat.le_refl _)] at he
    cases he
  · unfold add at he
    split_ifs at he with hs
    · exact .inr ⟨supply.next, hs.trans hd, Nat.le_refl _, Nat.lt_succ_self _⟩
    · exact .inl he

end Heap

mutual

/-- Every schema that the statement takes in has the property. -/
def Declaration.TakesIn (P : Schema → Prop) : Declaration → Prop
  | .setting _ _ | .unregistered _ => True
  | .nested _ _ block => Declaration.TakeIn P block
  | .inclusion other => P other
  | .group _ script => Declaration.TakeIn P script

def Declaration.TakeIn (P : Schema → Prop) : List Declaration → Prop
  | [] => True
  | d :: rest => Declaration.TakesIn P d ∧ Declaration.TakeIn P rest

end

theorem Schema.All.declare {P : Definition → Prop} {s : Schema} {d : Definition} (h : s.All P)
    (hd : P d) (hi : ∀ inner, d.group = some inner → inner.All P) : (s.declare d).state.All P := by
  unfold Schema.declare
  split
  · exact h
  · exact h.insert hd hi _

namespace Scope
open Heap

/-- What one or several statements do to the heap. -/
def Supplied (heap : Heap) (scope : Scope) (a : Attempt Scope) : Prop :=
  ∃ heap', Grows heap heap' scope.supply a.state.supply ∧ a.state.schema.StandsIn heap'

variable {heap heap' : Heap} {scope : Scope}

theorem supplied_failed (h : scope.schema.StandsIn heap) (fault : Fault) :
    Supplied heap scope (.failed scope fault) :=
  ⟨heap, .refl heap _, h⟩

/-- A setting goes into the heap with its stamp. -/
theorem supplied_add_setting (h : scope.schema.StandsIn heap) (hr : heap.Reserves scope.supply)
    (name : String) (options : Options) :
    Supplied heap scope (scope.add scope.supply name options none) := by
  unfold add
  split
  · exact supplied_failed h _
  · next d hd =>
      obtain ⟨hstamp, hgroup, _⟩ := Definition.build_ok hd
      cases hfrozen : scope.schema.frozen with
      | true =>
          rw [Schema.declare_of_frozen hfrozen]
          exact supplied_failed h _
      | false =>
          have grown := grows_add hr hstamp
          have hnone : ∀ inner, d.group = some inner → inner.StandsIn (heap.add d) :=
            fun inner he => nomatch hgroup.symm.trans he
          rw [Schema.declare_of_unfrozen hfrozen]
          exact ⟨heap.add d, grown, (grown.standsIn h).insert (fun _ => if_pos rfl) hnone _⟩

/-- A group uses up a stamp and leaves the heap as its block made it. -/
theorem supplied_add_group (h : scope.schema.StandsIn heap) {supply : Supply}
    (grown : Grows heap heap' scope.supply supply) (name : String) (options : Options)
    {inner : Schema} (hi : inner.StandsIn heap') :
    Supplied heap scope (scope.add supply name options (some inner)) := by
  unfold add
  split
  · exact supplied_failed h _
  · next d hd =>
      obtain ⟨_, hgroup, _⟩ := Definition.build_ok hd
      cases hfrozen : scope.schema.frozen with
      | true =>
          rw [Schema.declare_of_frozen hfrozen]
          exact supplied_failed h _
      | false =>
          have hstands : d.StandsIn heap' := fun hn => nomatch hgroup.symm.trans hn
          have hinside : ∀ inner', d.group = some inner' → inner'.StandsIn heap' :=
            fun inner' he => Option.some.inj (hgroup.symm.trans he) ▸ hi
          rw [Schema.declare_of_unfrozen hfrozen]
          exact ⟨heap', grown.trans (.advance heap' supply),
            (grown.standsIn h).insert hstands hinside _⟩

theorem supplied_incorporate (h : scope.schema.StandsIn heap) {supply : Supply}
    (grown : Grows heap heap' scope.supply supply) {other : Schema} (ho : other.StandsIn heap') :
    Supplied heap scope (scope.incorporate supply other) := by
  unfold incorporate
  by_cases allowed : scope.schema.frozen = false ∨ other.definitions = []
  · rw [Schema.incorporate_of_allowed allowed]
    exact ⟨heap', grown, (grown.standsIn h).insertAll ho _⟩
  · obtain ⟨fault, hrefused⟩ := Schema.incorporate_of_not_allowed allowed
    rw [hrefused]
    exact supplied_failed h fault

theorem supplied_nest (h : scope.schema.StandsIn heap) (name : String) (options : Options)
    {block : Scope → Attempt Scope}
    (hblock : Supplied heap (start scope.supply) (block (start scope.supply))) :
    Supplied heap scope (scope.nest name options block) := by
  rcases nest_cases scope name options block with ⟨fault, hrefused⟩ | ⟨inner, hdone, hadded⟩
  · rw [hrefused]
    exact supplied_failed h fault
  · obtain ⟨heap', grown, hin⟩ := hblock
    rw [hdone, Attempt.state_done] at grown hin
    rw [hadded]
    exact supplied_add_group h grown name options hin

mutual

theorem TakesIn.mono {P Q : Schema → Prop} (hPQ : ∀ s, P s → Q s) :
    ∀ {d : Declaration}, d.TakesIn P → d.TakesIn Q
  | .setting _ _, _ => trivial
  | .unregistered _, _ => trivial
  | .nested _ _ _, h => TakeIn.mono hPQ h
  | .inclusion _, h => hPQ _ h
  | .group _ _, h => TakeIn.mono hPQ h

theorem TakeIn.mono {P Q : Schema → Prop} (hPQ : ∀ s, P s → Q s) :
    ∀ {ds : List Declaration}, Declaration.TakeIn P ds → Declaration.TakeIn Q ds
  | [], _ => trivial
  | _ :: _, h => ⟨TakesIn.mono hPQ h.1, TakeIn.mono hPQ h.2⟩

end

mutual

theorem supplied_declare : ∀ {heap : Heap} {scope : Scope} (d : Declaration),
    scope.schema.StandsIn heap → heap.Reserves scope.supply →
    d.TakesIn (Schema.StandsIn heap) → Supplied heap scope (scope.declare d)
  | heap, scope, .setting name options, h, hr, _ => by
      rw [declare]
      exact supplied_add_setting h hr name options
  | heap, scope, .nested name options block, h, hr, ht => by
      rw [declare]
      exact supplied_nest h name options (supplied_run block Schema.all_empty hr ht)
  | heap, scope, .inclusion other, h, _, ht => by
      rw [declare]
      exact supplied_incorporate h (.refl heap _) ht
  | heap, scope, .group name script, h, hr, ht => by
      have hscript : Supplied heap (start scope.supply) ((start scope.supply).run script) :=
        supplied_run script Schema.all_empty hr ht
      rw [declare]
      rcases takeIn_cases scope fun inner => run inner script with
        ⟨fault, hrefused⟩ | ⟨inner, hdone, htaken⟩
      · rw [hrefused]
        exact supplied_failed h fault
      · obtain ⟨heap', grown, hin⟩ := hscript
        rw [hdone, Attempt.state_done] at grown hin
        rw [htaken]
        exact supplied_incorporate h grown hin
  | heap, scope, .unregistered name, h, _, _ => by
      rw [declare]
      exact supplied_failed h _

theorem supplied_run : ∀ {heap : Heap} {scope : Scope} (ds : List Declaration),
    scope.schema.StandsIn heap → heap.Reserves scope.supply →
    Declaration.TakeIn (Schema.StandsIn heap) ds → Supplied heap scope (scope.run ds)
  | heap, scope, [], h, _, _ => by
      rw [run]
      exact ⟨heap, .refl heap _, h⟩
  | heap, scope, d :: rest, h, hr, ht => by
      rw [run]
      obtain ⟨heap₁, hg, hin⟩ := supplied_declare d h hr ht.1
      unfold Attempt.andThen
      split
      · obtain ⟨heap₂, hg', hin'⟩ := supplied_run rest hin (hg.reserves hr)
          (TakeIn.mono (fun _ => hg.standsIn) ht.2)
        exact ⟨heap₂, hg.trans hg', hin'⟩
      · exact ⟨heap₁, hg, hin⟩

end

end Scope
end SettingsTree
