import SettingsTree.Proofs.Config.Stamped
import SettingsTree.Proofs.World.Provenance

/-!
# Stamps tell definitions apart

A run may put any configuration that can be read from the world in the place of another one,
which then need not fit the schema it is read under. What is left of the invariant of
grounded runs is that all definitions of the world stand in one heap: two definitions with
one stamp are the same, whatever configurations have been moved about.
-/
namespace SettingsTree

open Config

structure Owner.Stamped (heap : Heap) (k : Nat) (o : Owner) : Prop where
  author : o.supply.author = k
  known : o.schema.StandsIn heap
  current : ∀ c, o.current? = some c → c.Stamped heap

def Object.Stamped (heap : Heap) (k : Nat) : Object → Prop
  | schema s => s.StandsIn heap
  | config c => c.Stamped heap
  | owner o => o.Stamped heap k
  | inst i => i.config.Stamped heap

/-- All definitions of the world stand in the heap, and no stamp is in use that is still to
be given out. -/
structure World.Stamped (heap : Heap) (w : World) : Prop where
  objects : ∀ k x, w.held k = some x → x.Stamped heap k
  issued : w.Issued heap

/-- The configuration can be read through an object of the world. -/
def World.Reads (w : World) (c : Config) : Prop :=
  ∃ k x outer walk, w.held k = some x ∧ x.config? = some outer ∧ outer.descend walk = .ok c

/-- Everything that the operation takes from elsewhere can be had from the world: schemas,
and configurations that are put in the place of others. -/
def Op.Drawn (w : World) : Op → Prop
  | .act _ (.replace _ other) => w.Reads other
  | op => op.Grounded w

/-- A run in which every operation draws on the world it finds. -/
def World.Drawn (w : World) : List Op → Prop
  | [] => True
  | op :: rest => op.Drawn w ∧ (w.step op).Drawn rest

namespace Owner.Stamped
variable {heap heap' : Heap} {k : Nat} {o : Owner}

theorem mono (h : o.Stamped heap k) (hle : ∀ stamp d, heap stamp = some d → heap' stamp = some d) :
    o.Stamped heap' k :=
  ⟨h.author, h.known.mono fun _ hd hg => hle _ _ (hd hg), fun c hc => (h.current c hc).mono hle⟩

theorem config (h : o.Stamped heap k) : o.config.Stamped heap :=
  config_keeps (.fresh h.known) h.current fun c _ _ => .rebind c h.known

theorem new (heap : Heap) (name : String) (author : Nat) :
    (new name author).Stamped heap author :=
  ⟨rfl, Schema.all_empty, fun _ hc => nomatch hc⟩

theorem derive (h : o.Stamped heap k) (name : String) (author : Nat) :
    (o.derive name author).Stamped heap author := by
  refine ⟨rfl, h.known, fun c hc => ?_⟩
  obtain ⟨held, hheld, rfl⟩ := exists_of_current_derive hc
  exact (h.current held hheld).duplicate

theorem declare (h : o.Stamped heap k) (hr : heap.Reserves o.supply) {d : Declaration}
    (hd : d.TakesIn (Schema.StandsIn heap)) :
    ∃ heap', heap.Grows heap' o.supply (o.declare d).state.supply ∧
      (o.declare d).state.Stamped heap' k := by
  cases hf : (o.declare d).fault with
  | some fault =>
      rw [declare_failed hf]
      exact ⟨heap, .refl heap _, h⟩
  | none =>
      obtain ⟨hb, scope, hscope, hstate⟩ := declare_done hf
      have hsupplied : Scope.Supplied heap ⟨o.schema, o.supply⟩
          (Scope.declare ⟨o.schema, o.supply⟩ d) := Scope.supplied_declare d h.known hr hd
      obtain ⟨heap', hg, hs⟩ := hsupplied
      rw [hscope, Attempt.state_done] at hg hs
      rw [hstate]
      refine ⟨heap', hg, hg.author.trans h.author, hs, fun c hc => ?_⟩
      simp only [current?, hb, Option.none_or] at hc
      obtain ⟨old, _, rfl⟩ := Option.map_eq_some_iff.1 hc
      exact .rebind old hs

end Owner.Stamped

namespace Object.Stamped
variable {heap heap' : Heap} {k : Nat} {x : Object}

theorem mono (h : x.Stamped heap k) (hle : ∀ stamp d, heap stamp = some d → heap' stamp = some d) :
    x.Stamped heap' k := by
  cases x with
  | schema s => exact Schema.All.mono h fun _ hd hg => hle _ _ (hd hg)
  | config c => exact Config.Stamped.mono h hle
  | owner o => exact Owner.Stamped.mono h hle
  | inst i => exact Config.Stamped.mono h hle

theorem config {c : Config} (h : x.Stamped heap k) (hc : x.config? = some c) :
    c.Stamped heap := by
  cases x with
  | schema s => cases hc
  | config c => exact Option.some.inj hc ▸ h
  | owner o => exact Option.some.inj hc ▸ Owner.Stamped.config h
  | inst i => exact Option.some.inj hc ▸ h

end Object.Stamped

theorem Config.Stamped.act {heap : Heap} {c : Config} {a : Act} (h : c.Stamped heap)
    (ho : ∀ walk other, a = .replace walk other → other.Stamped heap) :
    (c.act a).state.Stamped heap :=
  act_keeps h.changes fun walk other he => h.replace walk (ho walk other he)

theorem Object.Stamped.act {heap : Heap} {k : Nat} {x : Object} {a : Act} (h : x.Stamped heap k)
    (hd : ∀ d, a ≠ .declare d) (ho : ∀ walk other, a = .replace walk other → other.Stamped heap) :
    (x.act a).state.Stamped heap k := by
  cases x with
  | schema s => exact h
  | config c => exact Config.Stamped.act h ho
  | owner o =>
      have hafter := (Owner.Stamped.config h).act ho
      show Owner.Stamped heap k (o.act a).state
      rw [o.state_act hd]
      exact ⟨h.author, h.known, fun _ hc => Option.some.inj hc ▸ hafter⟩
  | inst i =>
      show Config.Stamped heap (i.act a).state.config
      rw [i.state_act]
      exact Config.Stamped.act h ho

namespace World
variable {heap heap' : Heap} {w : World}

namespace Stamped

theorem shows (h : w.Stamped heap) {s : Schema} (hs : w.Shows s) : s.StandsIn heap := by
  induction hs with
  | empty => exact Schema.all_empty
  | held hk => exact h.objects _ _ hk
  | owner hk => exact (h.objects _ _ hk).known
  | config hk hc hd => exact (((h.objects _ _ hk).config hc).descend hd).known.here
  | inside _ hd hg ih => exact ih.inside hd hg

theorem reads (h : w.Stamped heap) {c : Config} (hc : w.Reads c) : c.Stamped heap := by
  obtain ⟨k, x, outer, walk, hk, hx, hd⟩ := hc
  exact ((h.objects k x hk).config hx).descend hd

theorem tick {made : Option Object} (h : w.Stamped heap)
    (hmade : ∀ x, made = some x → x.Stamped heap' w.clock)
    (hle : ∀ stamp d, heap stamp = some d → heap' stamp = some d)
    (hused : ∀ a n d, heap' (.declared a n) = some d → heap (.declared a n) = some d ∨
      a = w.clock ∧ ∀ o, made ≠ some (.owner o)) :
    (w.tick made).Stamped heap' := by
  refine ⟨fun k x hk => ?_, h.issued.tick hused⟩
  rw [held_tick] at hk
  split_ifs at hk with he
  · rw [he]
    exact hmade x hk
  · exact (h.objects k x hk).mono hle

theorem tick_none (h : w.Stamped heap) : (w.tick none).Stamped heap :=
  h.tick (fun _ hx => nomatch hx) (fun _ _ hd => hd) fun _ _ _ hd => .inl hd

theorem put {k : Nat} {x y : Object} (h : w.Stamped heap) (hk : w.held k = some x)
    (hy : y.Stamped heap' k) (hle : ∀ stamp d, heap stamp = some d → heap' stamp = some d)
    (hused : ∀ a n d, heap' (.declared a n) = some d → heap (.declared a n) = some d ∨
      a = k ∧ ∀ o, y = .owner o → n < o.supply.next)
    (hnext : ∀ o, y = .owner o → ∃ o', x = .owner o' ∧ o'.supply.next ≤ o.supply.next) :
    (w.put k y).Stamped heap' := by
  refine ⟨fun j z hj => ?_, h.issued.put hk hused hnext⟩
  rw [held_put] at hj
  split_ifs at hj with he
  · rw [he]
    exact Option.some.inj hj ▸ hy
  · exact (h.objects j z hj).mono hle

/-- A declaration uses stamps that no definition of the world has. -/
theorem declare {k : Nat} {o : Owner} {d : Declaration} (h : w.Stamped heap)
    (hk : w.held k = some (.owner o)) (hd : d.TakesIn w.Shows) :
    ∃ heap', heap.Grows heap' o.supply (o.declare d).state.supply ∧
      (o.declare d).state.Stamped heap' k := by
  have ho : o.Stamped heap k := h.objects k _ hk
  exact ho.declare (h.issued.reserves hk ho.author) (Scope.TakesIn.mono (fun _ => h.shows) hd)

theorem act {k : Nat} {x : Object} {a : Act} (h : w.Stamped heap) (hk : w.held k = some x)
    (ha : Op.Drawn w (.act k a)) : ∃ heap', (w.put k (x.act a).state).Stamped heap' := by
  have hx := h.objects k x hk
  by_cases hd : ∃ d, a = .declare d
  · obtain ⟨d, rfl⟩ := hd
    cases x with
    | owner o =>
        obtain ⟨heap', hg, hs⟩ := h.declare hk ha
        exact ⟨heap', h.put hk hs hg.kept (hg.used hx.author) fun o' he =>
          ⟨o, rfl, Object.owner.inj he ▸ hg.next⟩⟩
    | schema s | config c | inst i =>
        exact ⟨heap, h.put hk hx (fun _ _ hs => hs) (fun _ _ _ hs => .inl hs)
          fun _ he => nomatch he⟩
  · have hne : ∀ d, a ≠ .declare d := fun d he => hd ⟨d, he⟩
    have hother : ∀ walk other, a = .replace walk other → other.Stamped heap := by
      rintro walk other rfl
      exact h.reads ha
    exact ⟨heap, h.put hk (hx.act hne hother) (fun _ _ hs => hs) (fun _ _ _ hs => .inl hs)
      fun _ he => Object.supply_act hne he⟩

theorem look {k : Nat} {x : Object} (h : w.Stamped heap) (hk : w.held k = some x) :
    (w.put k (x.act .look).state).Stamped heap := by
  have hlook : ∀ d, Act.look ≠ .declare d := fun _ he => nomatch he
  exact h.put hk ((h.objects k x hk).act hlook fun _ _ he => nomatch he) (fun _ _ hs => hs)
    (fun _ _ _ hs => .inl hs) fun _ he => Object.supply_act hlook he

/-- Every drawn operation keeps the definitions apart. -/
theorem step {op : Op} (h : w.Stamped heap) (hop : op.Drawn w) :
    ∃ heap', (w.step op).Stamped heap' := by
  cases op with
  | schema making =>
      have hmaking : making.From w.Shows := hop
      obtain ⟨heap', after, hg, hs⟩ :=
        Schema.Making.standsIn (hmaking.mono fun _ => h.shows) h.issued.reserves_clock
      refine ⟨heap', h.tick (fun x hx => Option.some.inj hx ▸ hs) hg.kept fun a n e he => ?_⟩
      rcases hg.fresh _ e he with hold | ⟨m, hm, _, _⟩
      · exact .inl hold
      · exact .inr ⟨(Stamp.declared.inj hm).1, fun o ho => nomatch ho⟩
  | bind s =>
      refine ⟨heap, h.tick (fun x hx => ?_) (fun _ _ hs => hs) fun _ _ _ hs => .inl hs⟩
      exact Option.some.inj hx ▸ Config.Stamped.fresh (h.shows hop)
  | found name =>
      refine ⟨heap, h.tick (fun x hx => ?_) (fun _ _ hs => hs) fun _ _ _ hs => .inl hs⟩
      exact Option.some.inj hx ▸ Owner.Stamped.new heap name w.clock
  | derive k name =>
      refine ⟨heap, h.tick (fun x hx => ?_) (fun _ _ hs => hs) fun _ _ _ hs => .inl hs⟩
      unfold derived? at hx
      split at hx
      · next o hk =>
          exact Option.some.inj hx ▸ Owner.Stamped.derive (h.objects k _ hk) name w.clock
      · cases hx
  | spawn k =>
      simp only [World.step]
      split
      · next o hk =>
          refine ⟨heap, (h.look hk).tick (fun x hx => ?_) (fun _ _ hs => hs)
            fun _ _ _ hs => .inl hs⟩
          refine Option.some.inj hx ▸ ?_
          show Config.Stamped heap o.build.config.duplicate
          rw [Owner.config_build]
          exact (Owner.Stamped.config (h.objects k _ hk)).duplicate
      · exact ⟨heap, h.tick_none⟩
  | copy k copy =>
      simp only [World.step]
      cases hk : w.held k with
      | none => exact ⟨heap, h.tick_none⟩
      | some x =>
          refine ⟨heap, (h.look hk).tick (fun y hy => ?_) (fun _ _ hs => hs)
            fun _ _ _ hs => .inl hs⟩
          obtain ⟨made, hm, rfl⟩ := Option.map_eq_some_iff.1 hy
          obtain ⟨c, hc, hm⟩ := Option.bind_eq_some_iff.1 hm
          have hmade : copy.apply c = .ok made := Except.eq_ok_of_toOption hm
          refine Config.Stamped.copy ((h.objects k x hk).config hc) hmade fun s hs => ?_
          obtain ⟨walk, making⟩ := copy
          obtain rfl : making = .rebind s := hs
          exact h.shows hop
  | act k a =>
      simp only [World.step]
      cases hk : w.held k with
      | none => exact ⟨heap, h.tick_none⟩
      | some x =>
          obtain ⟨heap', hput⟩ := h.act hk hop
          exact ⟨heap', hput.tick_none⟩

/-- In every drawn run two definitions with one stamp are the same. -/
theorem after {ops : List Op} (h : w.Stamped heap) (hops : w.Drawn ops) :
    ∃ heap', (w.after ops).Stamped heap' := by
  induction ops generalizing w heap with
  | nil => exact ⟨heap, h⟩
  | cons op rest ih =>
      obtain ⟨heap', hs⟩ := h.step hops.1
      exact ih hs hops.2

end Stamped

theorem stamped_empty : empty.Stamped fun _ => none :=
  ⟨fun _ _ hk => (nomatch hk), fun _ _ => rfl, fun _ _ _ hs => nomatch hs⟩

theorem drawn_append {first second : List Op} :
    w.Drawn (first ++ second) ↔ w.Drawn first ∧ (w.after first).Drawn second := by
  induction first generalizing w with
  | nil => exact iff_of_eq (true_and _).symm
  | cons op rest ih => exact (and_congr_right fun _ => ih).trans and_assoc.symm

theorem drawn_of_grounded {op : Op} (h : op.Grounded w) : op.Drawn w := by
  cases op with
  | act k a =>
      cases a with
      | replace => cases h
      | declare | edit | configure | finalize | read | look => exact h
  | schema | bind | found | derive | spawn | copy => exact h

theorem Grounded.drawn {ops : List Op} (h : w.Grounded ops) : w.Drawn ops := by
  induction ops generalizing w with
  | nil => trivial
  | cons op rest ih => exact ⟨drawn_of_grounded h.1, ih h.2⟩

theorem Grounded.of_append {first second : List Op} (h : w.Grounded (first ++ second)) :
    w.Grounded first := by
  induction first generalizing w with
  | nil => trivial
  | cons op rest ih => exact ⟨h.1, ih h.2⟩

/-- Where no configuration is put in the place of another one, every owner is fitting. -/
theorem Grounded.fitting {ops : List Op} (h : empty.Grounded ops) {k : Nat} {o : Owner}
    (hk : (empty.after ops).held k = some (.owner o)) : o.Fitting := by
  obtain ⟨_, hs⟩ := sound_empty.after h
  have ho : Owner.Sound _ k _ o := hs.objects k _ hk
  exact ho.fitting

end World
end SettingsTree
