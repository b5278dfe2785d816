import SettingsTree.Proofs.Config.Copies
import SettingsTree.Proofs.World.Books

/-!
# Where values come from

In a run of grounded operations the books explain every value that can be read. A
single setting reads as what the constructor of its definition returns for the raw
value that its ledger has, or for the default if there is none, and the assignment in
the ledger was made under that very definition.

The invariant is `World.Sound`. It carries a heap along, in which all definitions of
the world stand, so that definitions with one stamp are the same; declarations are the
only operations that make it grow.
-/
namespace SettingsTree

open Config

/-- What holds of an owner: its configuration, built or inherited, has the schema of
the owner and is tracked. -/
structure Owner.Sound (heap : Heap) (k : Nat) (l : Ledger) (o : Owner) : Prop where
  author : o.supply.author = k
  known : o.schema.StandsIn heap
  current : ∀ c, o.current? = some c → c.schema = o.schema ∧ Tracked heap l c
  fresh : o.current? = none → l = .empty

def Object.Sound (heap : Heap) (k : Nat) (l : Ledger) : Object → Prop
  | schema s => s.StandsIn heap
  | config c => Tracked heap l c
  | owner o => o.Sound heap k l
  | inst i => Tracked heap l i.config

/-- Every object is sound, and no stamp is in use that is still to be given out. -/
structure World.Sound (heap : Heap) (books : World.Books) (w : World) : Prop where
  objects : ∀ k x, w.held k = some x → x.Sound heap k (books k)
  later : ∀ k, w.clock ≤ k → w.held k = none
  used : ∀ a n d, heap (.declared a n) = some d →
    a < w.clock ∧ ∀ o, w.held a = some (.owner o) → n < o.supply.next

/-- No stamp is in use in the world that is still to be given out. -/
structure World.Issued (heap : Heap) (w : World) : Prop where
  later : ∀ k, w.clock ≤ k → w.held k = none
  used : ∀ a n d, heap (.declared a n) = some d →
    a < w.clock ∧ ∀ o, w.held a = some (.owner o) → n < o.supply.next

theorem World.Sound.issued {heap : Heap} {books : World.Books} {w : World}
    (h : w.Sound heap books) : w.Issued heap :=
  ⟨h.later, h.used⟩

namespace Owner
variable {heap heap' : Heap} {k : Nat} {l : Ledger} {o : Owner}

theorem config_eq (o : Owner) :
    o.config =
      match o.current? with
      | some c => if o.isConfigured then c else c.rebind o.schema
      | none => .fresh o.schema := by
  unfold config current? isConfigured
  cases o.built <;> cases o.inherited <;> rfl

/-- An owner reads what it has built, or what it inherited, rebound, or a fresh configuration. -/
theorem config_keeps {P : Config → Prop} (fresh : P (.fresh o.schema))
    (current : ∀ c, o.current? = some c → P c)
    (rebind : ∀ c, o.current? = some c → P c → P (c.rebind o.schema)) : P o.config := by
  rw [config_eq]
  cases hc : o.current? with
  | none => exact fresh
  | some c =>
      have held := current c hc
      simp only
      split_ifs
      · exact held
      · exact rebind c hc held

theorem current_derive (o : Owner) (name : String) (author : Nat) :
    (o.derive name author).current? = o.current?.map duplicate := rfl

theorem exists_of_current_derive {name : String} {author : Nat} {c : Config}
    (hc : (o.derive name author).current? = some c) :
    ∃ held, o.current? = some held ∧ held.duplicate = c :=
  Option.map_eq_some_iff.1 hc

theorem schema_config (h : ∀ c, o.built = some c → c.schema = o.schema) :
    o.config.schema = o.schema := by
  rw [config]
  split
  · next c hc => exact h c hc
  · exact schema_rebind _ _
  · exact schema_fresh _

/-- What the owner has built or inherited is bound to its own schema and fits it. -/
def Fitting (o : Owner) : Prop :=
  ∀ c, o.current? = some c → c.schema = o.schema ∧ c.schema.Proper ∧ c.WellFormed

theorem Fitting.config_of_current {c : Config} (h : o.Fitting) (hc : o.current? = some c) :
    o.config = c := by
  obtain ⟨hs, hp, hw⟩ := h c hc
  rw [config_eq, hc]
  simp only
  split_ifs
  · rfl
  · rw [← hs]
    exact hw.rebind_self hp

theorem Sound.fitting (h : o.Sound heap k l) : o.Fitting := fun c hc =>
  ⟨(h.current c hc).1, (h.current c hc).2.known.proper, (h.current c hc).2.wellFormed⟩

theorem Sound.config (h : o.Sound heap k l) :
    o.config.schema = o.schema ∧ Tracked heap l o.config := by
  cases hc : o.current? with
  | none =>
      rw [config_eq, hc, h.fresh hc]
      exact ⟨schema_fresh _, .fresh h.known⟩
  | some c =>
      rw [h.fitting.config_of_current hc]
      exact h.current c hc

theorem Sound.mono (h : o.Sound heap k l)
    (hle : ∀ stamp d, heap stamp = some d → heap' stamp = some d) : o.Sound heap' k l :=
  ⟨h.author, h.known.mono fun _ hd hg => hle _ _ (hd hg),
    fun c hc => ⟨(h.current c hc).1, (h.current c hc).2.mono hle⟩, h.fresh⟩

theorem Sound.built (h : o.Sound heap k l) {l' : Ledger} {c : Config} (hs : c.schema = o.schema)
    (hc : Tracked heap l' c) : Sound heap k l' { o with built := some c } :=
  ⟨h.author, h.known, fun _ he => Option.some.inj he ▸ ⟨hs, hc⟩, fun he => nomatch he⟩

theorem state_act (o : Owner) {a : Act} (h : ∀ d, a ≠ .declare d) :
    (o.act a).state = { o with built := some (o.config.act a).state } := by
  cases a with
  | declare d => exact absurd rfl (h d)
  | edit | replace | configure | finalize | read | look => rfl

theorem Sound.new (heap : Heap) (name : String) (author : Nat) :
    (new name author).Sound heap author .empty :=
  ⟨rfl, Schema.all_empty, fun _ hc => (nomatch hc), fun _ => rfl⟩

theorem Sound.derive (h : o.Sound heap k l) (name : String) (author : Nat) :
    (o.derive name author).Sound heap author l := by
  refine ⟨rfl, h.known, fun c hc => ?_, fun hc => ?_⟩
  · obtain ⟨held, hheld, rfl⟩ := exists_of_current_derive hc
    obtain ⟨hs, ht⟩ := h.current held hheld
    exact ⟨(schema_duplicate held).trans hs, ht.duplicate⟩
  · rw [current_derive, Option.map_eq_none_iff] at hc
    exact h.fresh hc

theorem fault_compile (o : Owner) (label : String) (script : Scope → Attempt Scope) :
    (o.compile label script).fault =
      if o.isConfigured then some (.alreadyDefined label)
      else if o.schema.frozen then some (.frozenSchema label)
      else (script ⟨o.schema, o.supply⟩).fault := by
  unfold compile
  by_cases hb : o.isConfigured = true
  · simp only [if_pos hb]
    rfl
  · by_cases hz : o.schema.frozen = true
    · simp only [if_neg hb, if_pos hz]
      rfl
    · simp only [if_neg hb, if_neg hz, Attempt.toExcept]
      cases (script ⟨o.schema, o.supply⟩).fault <;> rfl

theorem fault_declare (o : Owner) (d : Declaration) :
    (o.declare d).fault =
      if o.isConfigured then some (.alreadyDefined d.label)
      else if o.schema.frozen then some (.frozenSchema d.label)
      else (Scope.declare ⟨o.schema, o.supply⟩ d).fault :=
  o.fault_compile d.label fun scope => scope.declare d

/-- All that a script can make of an owner. -/
theorem compile_cases (o : Owner) (label : String) (script : Scope → Attempt Scope) :
    (∃ fault, o.compile label script = .failed o fault) ∨
      o.built = none ∧ ∃ scope, script ⟨o.schema, o.supply⟩ = .done scope ∧
        o.compile label script = .done
          { o with
            schema := scope.schema
            supply := scope.supply
            origin := if o.origin = .own then .own else .forked
            inherited := o.inherited.map (Config.rebind · scope.schema)
            readers := collectReaders o.readers scope.schema } := by
  unfold compile
  by_cases hb : o.isConfigured = true
  · exact .inl ⟨_, if_pos hb⟩
  by_cases hz : o.schema.frozen = true
  · rw [if_neg hb, if_pos hz]
    exact .inl ⟨_, rfl⟩
  · rw [if_neg hb, if_neg hz]
    cases hscript : (script ⟨o.schema, o.supply⟩).toExcept with
    | error fault => exact .inl ⟨fault, rfl⟩
    | ok scope =>
        have hnone : o.built = none := by simpa [isConfigured] using hb
        exact .inr ⟨hnone, scope, Attempt.toExcept_eq_ok.1 hscript, rfl⟩

theorem compile_failed {label : String} {script : Scope → Attempt Scope} {fault : Fault}
    (h : (o.compile label script).fault = some fault) : (o.compile label script).state = o := by
  rcases compile_cases o label script with ⟨cause, hrefused⟩ | ⟨_, scope, _, hdone⟩
  · rw [hrefused, Attempt.state_failed]
  · rw [hdone] at h
    cases h

/-- What a declaration that goes through makes of an owner. -/
theorem declare_done {d : Declaration} (h : (o.declare d).fault = none) :
    o.built = none ∧ ∃ scope, Scope.declare ⟨o.schema, o.supply⟩ d = .done scope ∧
      (o.declare d).state =
        { o with
          schema := scope.schema
          supply := scope.supply
          origin := if o.origin = .own then .own else .forked
          inherited := o.inherited.map (Config.rebind · scope.schema)
          readers := collectReaders o.readers scope.schema } := by
  unfold declare at h ⊢
  rcases compile_cases o d.label fun scope => scope.declare d with
    ⟨cause, hrefused⟩ | ⟨hnone, scope, hscope, hdone⟩
  · rw [hrefused] at h
    cases h
  · exact ⟨hnone, scope, hscope, congrArg Attempt.state hdone⟩

theorem declare_failed {d : Declaration} {fault : Fault} (h : (o.declare d).fault = some fault) :
    (o.declare d).state = o :=
  compile_failed h

theorem exists_of_current_declare {d : Declaration} {c : Config} (h : (o.declare d).fault = none)
    (hc : (o.declare d).state.current? = some c) :
    ∃ held, o.current? = some held ∧ held.rebind (o.declare d).state.schema = c := by
  obtain ⟨hunbuilt, scope, _, hstate⟩ := declare_done h
  rw [hstate] at hc ⊢
  simp only [current?, hunbuilt, Option.none_or] at hc ⊢
  exact Option.map_eq_some_iff.1 hc

/-- A declaration makes the heap grow by the stamps that the owner gives out. -/
theorem Sound.declare (h : o.Sound heap k l) (hr : heap.Reserves o.supply) {d : Declaration}
    (hd : d.TakesIn (Schema.StandsIn heap)) :
    ∃ heap', heap.Grows heap' o.supply (o.declare d).state.supply ∧
      (o.declare d).state.Sound heap' k ((Object.owner o).ledger l (.declare d)) := by
  cases hf : (o.declare d).fault with
  | some fault =>
      rw [declare_failed hf]
      refine ⟨heap, .refl heap _, ?_⟩
      simp only [Object.ledger, hf]
      exact h
  | none =>
      obtain ⟨hb, scope, hscope, hstate⟩ := declare_done hf
      have hsupplied : Scope.Supplied heap ⟨o.schema, o.supply⟩
          (Scope.declare ⟨o.schema, o.supply⟩ d) := Scope.supplied_declare d h.known hr hd
      obtain ⟨heap', hg, hs⟩ := hsupplied
      rw [hscope, Attempt.state_done] at hg hs
      have hl : (Object.owner o).ledger l (.declare d) = l.keep scope.schema := by
        simp only [Object.ledger, hf, hstate]
      rw [hl, hstate]
      have hcurrent : o.current? = o.inherited := by simp [current?, hb]
      refine ⟨heap', hg, hg.author.trans h.author, hs, fun c hc => ?_, fun hc => ?_⟩
      · simp only [current?, hb, Option.none_or] at hc
        obtain ⟨old, ho, rfl⟩ := Option.map_eq_some_iff.1 hc
        obtain ⟨_, ht⟩ := h.current old (hcurrent.trans ho)
        exact ⟨schema_rebind old _, (ht.mono hg.kept).rebind hs⟩
      · simp only [current?, hb, Option.none_or, Option.map_eq_none_iff] at hc
        rw [h.fresh (hcurrent.trans hc)]
        rfl

end Owner

theorem Instance.state_act (i : Instance) (a : Act) :
    (i.act a).state = { i with config := (i.config.act a).state } := by
  cases a <;> rfl

theorem Object.Sound.mono {heap heap' : Heap} {k : Nat} {l : Ledger} {x : Object}
    (h : x.Sound heap k l) (hle : ∀ stamp d, heap stamp = some d → heap' stamp = some d) :
    x.Sound heap' k l := by
  cases x with
  | schema s => exact Schema.All.mono h fun _ hd hg => hle _ _ (hd hg)
  | config c => exact Tracked.mono h hle
  | owner o => exact Owner.Sound.mono h hle
  | inst i => exact Tracked.mono h hle

theorem Object.Sound.config {heap : Heap} {k : Nat} {l : Ledger} {x : Object} {c : Config}
    (h : x.Sound heap k l) (hc : x.config? = some c) : Tracked heap l c := by
  cases x with
  | schema s => cases hc
  | config c => exact Option.some.inj hc ▸ h
  | owner o => exact Option.some.inj hc ▸ (Owner.Sound.config h).2
  | inst i => exact Option.some.inj hc ▸ h

/-- Calls other than declarations record their journals. -/
theorem Object.Sound.act {heap : Heap} {k : Nat} {l : Ledger} {x : Object} {a : Act}
    (h : x.Sound heap k l) (hd : ∀ d, a ≠ .declare d)
    (hr : ∀ walk other, a ≠ .replace walk other) :
    (x.act a).state.Sound heap k (x.ledger l a) := by
  have hl : ∀ c, x.config? = some c → x.ledger l a = l.recordAll (a.journal c) := by
    intro c hc
    cases a with
    | declare d => exact absurd rfl (hd d)
    | edit | replace | configure | finalize | read | look =>
        cases x <;> simp only [Object.ledger, hc]
  cases x with
  | schema s =>
      cases a with
      | declare d => exact absurd rfl (hd d)
      | edit | replace | configure | finalize | read | look => exact h
  | config c =>
      rw [hl c rfl]
      exact Tracked.changes h (changes_act c hr)
  | owner o =>
      rw [hl o.config rfl]
      obtain ⟨hs, ht⟩ := Owner.Sound.config h
      have hm := changes_act o.config hr
      show Object.Sound heap k _ (.owner (o.act a).state)
      rw [o.state_act hd]
      exact Owner.Sound.built h (hm.schema.trans hs) (ht.changes hm)
  | inst i =>
      rw [hl i.config rfl]
      show Tracked heap _ (i.act a).state.config
      rw [i.state_act]
      exact Tracked.changes h (changes_act i.config hr)

theorem Heap.Grows.used {heap heap' : Heap} {k : Nat} {o o' : Owner}
    (h : heap.Grows heap' o.supply o'.supply) (ha : o.supply.author = k) (a n : Nat)
    (d : Definition) (hd : heap' (.declared a n) = some d) :
    heap (.declared a n) = some d ∨
      a = k ∧ ∀ after, Object.owner o' = .owner after → n < after.supply.next := by
  rcases h.fresh _ d hd with hold | ⟨m, hm, _, hlt⟩
  · exact .inl hold
  · obtain ⟨rfl, rfl⟩ := Stamp.declared.inj hm
    exact .inr ⟨ha, fun after he => Object.owner.inj he ▸ hlt⟩

namespace World
variable {heap heap' : Heap} {books : Books} {w : World}

theorem Sound.shows (h : w.Sound heap books) {s : Schema} (hs : w.Shows s) :
    s.StandsIn heap := by
  induction hs with
  | empty => exact Schema.all_empty
  | held hk => exact h.objects _ _ hk
  | owner hk => exact (h.objects _ _ hk).known
  | config hk hc hd => exact (((h.objects _ _ hk).config hc).descend hd).known
  | inside _ hd hg ih => exact ih.inside hd hg

namespace Issued

theorem lt_clock {k : Nat} {x : Object} (h : w.Issued heap) (hk : w.held k = some x) :
    k < w.clock := by
  by_contra hge
  rw [h.later k (by omega)] at hk
  cases hk

/-- No stamp that an owner is still to give out is in use. -/
theorem reserves {k : Nat} {o : Owner} (h : w.Issued heap) (hk : w.held k = some (.owner o))
    (ha : o.supply.author = k) : heap.Reserves o.supply := by
  intro n hn
  cases hs : heap (.declared o.supply.author n) with
  | none => rfl
  | some e =>
      have := (h.used _ n e hs).2 o (by rw [ha]; exact hk)
      omega

theorem reserves_clock (h : w.Issued heap) : heap.Reserves ⟨w.clock, 0⟩ := by
  intro n _
  cases hs : heap (.declared w.clock n) with
  | none => rfl
  | some e => exact absurd (h.used _ n e hs).1 (by omega)

theorem tick {made : Option Object} (h : w.Issued heap)
    (hused : ∀ a n d, heap' (.declared a n) = some d → heap (.declared a n) = some d ∨
      a = w.clock ∧ ∀ o, made ≠ some (.owner o)) : (w.tick made).Issued heap' := by
  refine ⟨fun k hk => ?_, fun a n d hd => ?_⟩
  · rw [clock_tick] at hk
    rw [held_tick, if_neg (by omega)]
    exact h.later k (by omega)
  · rw [clock_tick]
    rcases hused a n d hd with hold | ⟨rfl, hnone⟩
    · obtain ⟨ha, hnext⟩ := h.used a n d hold
      refine ⟨by omega, fun o ho => hnext o ?_⟩
      rwa [held_tick, if_neg (by omega)] at ho
    · refine ⟨by omega, fun o ho => ?_⟩
      rw [held_tick, if_pos rfl] at ho
      exact absurd ho (hnone o)

theorem put {k : Nat} {x y : Object} (h : w.Issued heap) (hk : w.held k = some x)
    (hused : ∀ a n d, heap' (.declared a n) = some d → heap (.declared a n) = some d ∨
      a = k ∧ ∀ o, y = .owner o → n < o.supply.next)
    (hnext : ∀ o, y = .owner o → ∃ o', x = .owner o' ∧ o'.supply.next ≤ o.supply.next) :
    (w.put k y).Issued heap' := by
  have hlt : k < w.clock := h.lt_clock hk
  refine ⟨fun j hj => ?_, fun a n d hd => ?_⟩
  · rw [clock_put] at hj
    rw [held_put, if_neg (by omega)]
    exact h.later j hj
  · rw [clock_put]
    rcases hused a n d hd with hold | ⟨rfl, hn⟩
    · obtain ⟨ha, hown⟩ := h.used a n d hold
      refine ⟨ha, fun o ho => ?_⟩
      rw [held_put] at ho
      split_ifs at ho with he
      · obtain ⟨o', rfl, hle'⟩ := hnext o (Option.some.inj ho)
        have := hown o' (he ▸ hk)
        omega
      · exact hown o ho
    · refine ⟨hlt, fun o ho => hn o ?_⟩
      rw [held_put, if_pos rfl] at ho
      exact Option.some.inj ho

end Issued

theorem Sound.tick {made : Option Object} {l : Ledger} (h : w.Sound heap books)
    (hmade : ∀ x, made = some x → x.Sound heap' w.clock l)
    (hle : ∀ stamp d, heap stamp = some d → heap' stamp = some d)
    (hused : ∀ a n d, heap' (.declared a n) = some d → heap (.declared a n) = some d ∨
      a = w.clock ∧ ∀ o, made ≠ some (.owner o)) :
    (w.tick made).Sound heap' (books.enter w.clock l) := by
  obtain ⟨hlater, hissued⟩ := h.issued.tick hused
  refine ⟨fun k x hk => ?_, hlater, hissued⟩
  rw [held_tick] at hk
  unfold Books.enter
  split_ifs at hk ⊢ with he
  · rw [he]
    exact hmade x hk
  · exact (h.objects k x hk).mono hle

theorem Sound.put {k : Nat} {x y : Object} {l : Ledger} (h : w.Sound heap books)
    (hk : w.held k = some x) (hy : y.Sound heap' k l)
    (hle : ∀ stamp d, heap stamp = some d → heap' stamp = some d)
    (hused : ∀ a n d, heap' (.declared a n) = some d → heap (.declared a n) = some d ∨
      a = k ∧ ∀ o, y = .owner o → n < o.supply.next)
    (hnext : ∀ o, y = .owner o → ∃ o', x = .owner o' ∧ o'.supply.next ≤ o.supply.next) :
    (w.put k y).Sound heap' (books.enter k l) := by
  obtain ⟨hlater, hissued⟩ := h.issued.put hk hused hnext
  refine ⟨fun j z hj => ?_, hlater, hissued⟩
  rw [held_put] at hj
  unfold Books.enter
  split_ifs at hj ⊢ with he
  · rw [he]
    exact Option.some.inj hj ▸ hy
  · exact (h.objects j z hj).mono hle

theorem Books.enter_self (books : Books) (k : Nat) : books.enter k (books k) = books := by
  funext j
  unfold enter
  split_ifs with he
  · rw [he]
  · rfl

theorem Sound.tick_enter (h : w.Sound heap books) (l : Ledger) :
    (w.tick none).Sound heap (books.enter w.clock l) :=
  h.tick (fun _ hx => nomatch hx) (fun _ _ hd => hd) fun _ _ _ hd => .inl hd

theorem Sound.tick_none (h : w.Sound heap books) : (w.tick none).Sound heap books := by
  have ht := h.tick_enter (books w.clock)
  rwa [Books.enter_self] at ht

end World

theorem Schema.Making.From.mono {P Q : Schema → Prop} (hPQ : ∀ s, P s → Q s)
    {making : Schema.Making} (h : making.From P) : making.From Q := by
  cases making with
  | script s statements => exact ⟨hPQ s h.1, Scope.TakeIn.mono hPQ h.2⟩
  | define s name fallback construct reader group =>
      exact ⟨hPQ s h.1, fun inner hi => hPQ inner (h.2 inner hi)⟩
  | incorporate s other => exact ⟨hPQ s h.1, hPQ other h.2⟩
  | merge ours theirs => exact ⟨hPQ ours h.1, hPQ theirs h.2⟩
  | exact s => exact hPQ s h
  | duplicate s => exact hPQ s h
  | freeze s => exact hPQ s h

/-- A made schema stands in the heap, which grows by what its author declared. -/
theorem Schema.Making.standsIn {heap : Heap} {author : Nat} {making : Schema.Making}
    (h : making.From (Schema.StandsIn heap)) (hr : heap.Reserves ⟨author, 0⟩) :
    ∃ heap' after, heap.Grows heap' ⟨author, 0⟩ after ∧
      (making.apply author).StandsIn heap' := by
  cases making with
  | script s statements =>
      have hsupplied : Scope.Supplied heap ⟨s, { author }⟩ (Scope.run ⟨s, { author }⟩ statements) :=
        Scope.supplied_run statements h.1 hr h.2
      obtain ⟨heap', hg, hs⟩ := hsupplied
      exact ⟨heap', _, hg, hs⟩
  | define s name fallback construct reader group =>
      simp only [apply]
      split
      · next d hd =>
          obtain ⟨hstamp, hgroup, _⟩ := Definition.build_ok hd
          cases group with
          | none =>
              have hg := Heap.grows_add hr hstamp
              refine ⟨_, _, hg, (hg.standsIn h.1).declare (fun _ => if_pos rfl) fun inner hi => ?_⟩
              rw [hgroup] at hi
              cases hi
          | some t =>
              refine ⟨heap, _, .refl heap _, h.1.declare (fun hn => ?_) fun inner hi => ?_⟩
              · rw [hgroup] at hn
                cases hn
              · rw [hgroup] at hi
                exact Option.some.inj hi ▸ h.2 t rfl
      · exact ⟨heap, _, .refl heap _, h.1⟩
  | incorporate s other => exact ⟨heap, _, .refl heap _, h.1.incorporate h.2⟩
  | merge ours theirs =>
      refine ⟨heap, _, .refl heap _, Schema.All.merge (fun d stamp inner _ hn => ?_) h.1 h.2⟩
      cases hn
  | exact s => exact ⟨heap, _, .refl heap _, h⟩
  | duplicate s => exact ⟨heap, _, .refl heap _, Schema.All.duplicate h⟩
  | freeze s => exact ⟨heap, _, .refl heap _, Schema.All.freeze h⟩

theorem Object.supply_act {x : Object} {a : Act} (hd : ∀ d, a ≠ .declare d) {o : Owner}
    (h : (x.act a).state = .owner o) : ∃ o', x = .owner o' ∧ o'.supply.next ≤ o.supply.next := by
  cases x with
  | schema s => cases h
  | config c => cases h
  | owner o' =>
      have ho : (o'.act a).state = o := Object.owner.inj h
      rw [o'.state_act hd] at ho
      exact ⟨o', rfl, ho ▸ Nat.le_refl _⟩
  | inst i => cases h

namespace World
variable {heap : Heap} {books : Books} {w : World}

theorem Sound.act {k : Nat} {x : Object} {a : Act} (h : w.Sound heap books)
    (hk : w.held k = some x) (ha : Op.Grounded w (.act k a)) :
    ∃ heap', (w.put k (x.act a).state).Sound heap' (books.enter k (x.ledger (books k) a)) := by
  have hx := h.objects k x hk
  by_cases hd : ∃ d, a = .declare d
  · obtain ⟨d, rfl⟩ := hd
    cases x with
    | owner o =>
        have ho : o.Sound heap k (books k) := hx
        obtain ⟨heap', hg, hs⟩ := ho.declare (h.issued.reserves hk ho.author)
          (Scope.TakesIn.mono (fun _ => h.shows) ha)
        exact ⟨heap', h.put hk hs hg.kept (hg.used ho.author) fun o' he =>
          ⟨o, rfl, Object.owner.inj he ▸ hg.next⟩⟩
    | schema s | config c | inst i =>
        exact ⟨heap, h.put hk hx (fun _ _ hs => hs) (fun _ _ _ hs => .inl hs)
          fun _ he => nomatch he⟩
  · have hne : ∀ d, a ≠ .declare d := fun d he => hd ⟨d, he⟩
    have hnr : ∀ walk other, a ≠ .replace walk other := by
      rintro walk other rfl
      exact ha
    exact ⟨heap, h.put hk (hx.act hne hnr) (fun _ _ hs => hs) (fun _ _ _ hs => .inl hs)
      fun _ he => Object.supply_act hne he⟩

theorem Sound.look {k : Nat} {x : Object} (h : w.Sound heap books) (hk : w.held k = some x) :
    (w.put k (x.act .look).state).Sound heap books := by
  have hx := (h.objects k x hk).act (a := .look) (fun _ he => by cases he) fun _ _ he => by cases he
  have hl : x.ledger (books k) .look = books k := by cases x <;> rfl
  have hput := h.put hk hx (fun _ _ hs => hs) (fun _ _ _ hs => .inl hs)
    fun _ he => Object.supply_act (fun _ hd => by cases hd) he
  rwa [hl, Books.enter_self] at hput

/-- Every grounded operation leaves a sound world. -/
theorem Sound.step {op : Op} (h : w.Sound heap books) (hop : op.Grounded w) :
    ∃ heap', (w.step op).Sound heap' (books.step w op) := by
  cases op with
  | schema making =>
      obtain ⟨heap', after, hg, hs⟩ :=
        Schema.Making.standsIn (hop.mono fun _ => h.shows) h.issued.reserves_clock
      refine ⟨heap', h.tick (fun x hx => Option.some.inj hx ▸ hs) hg.kept fun a n e he => ?_⟩
      rcases hg.fresh _ e he with hold | ⟨m, hm, _, _⟩
      · exact .inl hold
      · exact .inr ⟨(Stamp.declared.inj hm).1, fun o ho => nomatch ho⟩
  | bind s =>
      refine ⟨heap, h.tick (fun x hx => ?_) (fun _ _ hs => hs) fun _ _ _ hs => .inl hs⟩
      exact Option.some.inj hx ▸ Tracked.fresh (h.shows hop)
  | found name =>
      refine ⟨heap, h.tick (fun x hx => ?_) (fun _ _ hs => hs) fun _ _ _ hs => .inl hs⟩
      exact Option.some.inj hx ▸ Owner.Sound.new heap name w.clock
  | derive k name =>
      refine ⟨heap, h.tick (fun x hx => ?_) (fun _ _ hs => hs) fun _ _ _ hs => .inl hs⟩
      unfold derived? at hx
      split at hx
      · next o hk => exact Option.some.inj hx ▸ Owner.Sound.derive (h.objects k _ hk) name w.clock
      · cases hx
  | spawn k =>
      simp only [World.step, Books.step]
      split
      · next o hk =>
          refine ⟨heap, (h.look hk).tick (fun x hx => ?_) (fun _ _ hs => hs)
            fun _ _ _ hs => .inl hs⟩
          have hi := Owner.Sound.config (h.objects k _ hk)
          refine Option.some.inj hx ▸ ?_
          show Tracked heap (books k) o.build.config.duplicate
          rw [Owner.config_build]
          exact hi.2.duplicate
      · exact ⟨heap, h.tick_enter (books k)⟩
  | copy k copy =>
      simp only [World.step, Books.step]
      cases hk : w.held k with
      | none => exact ⟨heap, h.tick_none⟩
      | some x =>
          have hlook := h.look hk
          cases hc : x.config? with
          | none =>
              simp only [Option.bind_some, hc, Option.bind_none, Option.map_none]
              exact ⟨heap, hlook.tick_none⟩
          | some c =>
              simp only [Option.bind_some, hc]
              refine ⟨heap, hlook.tick (fun y hy => ?_) (fun _ _ hs => hs)
                fun _ _ _ hs => .inl hs⟩
              obtain ⟨made, hm, rfl⟩ := Option.map_eq_some_iff.1 hy
              have hmade : copy.apply c = .ok made := Except.eq_ok_of_toOption hm
              refine ((h.objects k x hk).config hc).copy hmade fun s hs => ?_
              obtain ⟨walk, making⟩ := copy
              obtain rfl : making = .rebind s := hs
              exact h.shows hop
  | act k a =>
      simp only [World.step, Books.step]
      cases hk : w.held k with
      | none => exact ⟨heap, h.tick_none⟩
      | some x =>
          obtain ⟨heap', hput⟩ := h.act hk hop
          exact ⟨heap', hput.tick_none⟩

theorem sound_empty : empty.Sound (fun _ => none) fun _ => .empty :=
  ⟨fun _ _ hk => (nomatch hk), fun _ _ => rfl, fun _ _ _ hs => nomatch hs⟩

theorem Sound.after {ops : List Op} (h : w.Sound heap books) (hops : w.Grounded ops) :
    ∃ heap', (w.after ops).Sound heap' (w.books books ops) := by
  induction ops generalizing w heap books with
  | nil => exact ⟨heap, h⟩
  | cons op rest ih =>
      obtain ⟨heap', hs⟩ := h.step hops.1
      exact ih hs hops.2

/-- After a run of grounded operations every single setting reads as what its constructor
returns for the raw value of the last assignment that counts, or for the default if there
is none. That assignment was made under the definition with the stamp of the current one,
and no schema of the world has another definition with that stamp. -/
theorem value_eq_resolve_last_assignment {ops : List Op} (hops : empty.Grounded ops) {k : Nat}
    {x : Object} {c inner : Config} {walk : List String} {name : String} {d : Definition}
    (hk : (empty.after ops).held k = some x) (hc : x.config? = some c)
    (hd : c.descend walk = .ok inner) (hl : inner.schema.lookup name = some d)
    (hg : d.group = none) :
    inner.value name =
        d.resolve ((empty.books (fun _ => .empty) ops k ⟨walk, name⟩).map Prod.snd) ∧
      (∀ stamp raw, empty.books (fun _ => .empty) ops k ⟨walk, name⟩ = some (stamp, raw) →
        stamp = d.stamp) ∧
      ∀ s, (empty.after ops).Shows s → ∀ e ∈ s.definitions, e.group = none →
        e.stamp = d.stamp → e = d := by
  obtain ⟨heap, h⟩ := sound_empty.after hops
  have ht := (h.objects k x hk).config hc
  obtain ⟨hvalue, hstamp⟩ := ht.value_eq hd hl hg
  refine ⟨hvalue, hstamp, fun s hs e he heg hes => ?_⟩
  have hde := (ht.descend hd).known.each d (Schema.lookup_some hl).1 hg
  have hee := (h.shows hs).each e he heg
  rw [hes, hde] at hee
  exact (Option.some.inj hee).symm

/-- A child inherits an assigned value, declares a group, is assigned another value
twice, and declares the inherited setting anew on a child of its own. -/
def lineage : List Op :=
  [.found "base", .act 0 (.declare (.setting "a" { construct := some .wrap })),
    .act 0 (.declare (.setting "b" { construct := some .wrap })),
    .act 0 (.edit ⟨[], .set "a" .unit⟩), .act 0 (.edit ⟨[], .set "b" (.bool true)⟩),
    .derive 0 "child", .act 5 (.declare (.nested "g" {} [.setting "x" {}])),
    .derive 5 "grandchild",
    .act 7 (.declare (.setting "a" { fallback := some (.bool false), construct := some .wrap })),
    .act 7 (.edit ⟨["g"], .set "x" (.char 'q')⟩), .spawn 7]

theorem grounded_lineage : empty.Grounded lineage := by
  simp only [lineage, Grounded, Op.Grounded, Declaration.TakesIn, Declaration.TakeIn, and_self]

/-- On the instance in the end `b` was wrapped once, and `a` has its new default. -/
theorem value_eq_resolve_last_assignment_lineage :
    ∃ (x : Object) (c : Config) (d : Definition),
      (empty.Grounded lineage ∧ (empty.after lineage).held 10 = some x ∧ x.config? = some c ∧
        c.descend [] = .ok c ∧ c.schema.lookup "b" = some d ∧ d.group = none) ∧
      empty.books (fun _ => .empty) lineage 10 ⟨[], "b"⟩ = some (d.stamp, .bool true) ∧
      c.value "b" = d.resolve (some (.bool true)) ∧ c.value "b" = .ok (.seq [.bool true]) ∧
      c.value "a" = .ok (.seq [.bool false]) := by
  have hrun : ∃ (x : Object) (c : Config) (d : Definition),
      (empty.after lineage).held 10 = some x ∧ x.config? = some c ∧ c.descend [] = .ok c ∧
        c.schema.lookup "b" = some d ∧ d.group = none ∧
        empty.books (fun _ => .empty) lineage 10 ⟨[], "b"⟩ = some (d.stamp, .bool true) ∧
        c.value "b" = .ok (.seq [.bool true]) ∧ c.value "a" = .ok (.seq [.bool false]) :=
    ⟨_, _, _, rfl, rfl, rfl, rfl, rfl, rfl, rfl, rfl⟩
  obtain ⟨x, c, d, hk, hc, hd, hl, hg, hbook, hb, ha⟩ := hrun
  have hvalue := (value_eq_resolve_last_assignment grounded_lineage hk hc hd hl hg).1
  rw [hbook] at hvalue
  exact ⟨x, c, d, ⟨grounded_lineage, hk, hc, hd, hl, hg⟩, hbook, hvalue, hb, ha⟩

end World
end SettingsTree
