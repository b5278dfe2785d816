import SettingsTree.Proofs.Config.Genuine
import SettingsTree.Proofs.World.Alike

/-!
# Every configuration has genuine contents

Whatever configurations a run puts in the place of others, all that can be read from its
world are genuine: their values were returned by the constructors that they stand under.
Each of them was made and written under schemas that stand in one heap, and an operation
passes on contents or adds genuine ones to them.
-/
namespace SettingsTree

open Config

def Object.Genuine : Object → Prop
  | schema _ => True
  | config c => c.Genuine
  | owner o => ∀ c, o.current? = some c → c.Genuine
  | inst i => i.config.Genuine

theorem Object.Genuine.config {heap : Heap} {k : Nat} {x : Object} {c : Config}
    (h : x.Genuine) (hs : x.Stamped heap k) (hc : x.config? = some c) : c.Genuine := by
  cases x with
  | schema s => cases hc
  | config c => exact Option.some.inj hc ▸ h
  | inst i => exact Option.some.inj hc ▸ h
  | owner o =>
      have ho : o.Stamped heap k := hs
      obtain rfl : o.config = c := Option.some.inj hc
      exact Owner.config_keeps (genuine_fresh ho.known.proper) h fun held hheld hg =>
        hg.rebind (ho.current held hheld).known ho.known

/-- Calls pass contents on, except that a declaration on an owner rebinds what it inherited. -/
theorem Object.Genuine.act {heap : Heap} {k : Nat} {x : Object} {a : Act} (h : x.Genuine)
    (hs : x.Stamped heap k) (hd : ∀ d, a ≠ .declare d)
    (ho : ∀ walk other, a = .replace walk other → other.Genuine) : (x.act a).state.Genuine := by
  have hact : ∀ c : Config, c.Genuine → (c.act a).state.Genuine := fun c hc =>
    act_keeps hc.changes fun walk other he => hc.replace walk (ho walk other he)
  cases x with
  | schema s => exact h
  | config c => exact hact c h
  | inst i =>
      show Config.Genuine (i.act a).state.config
      rw [i.state_act]
      exact hact i.config h
  | owner o =>
      have hafter := hact o.config (h.config hs rfl)
      show Object.Genuine (.owner (o.act a).state)
      rw [o.state_act hd]
      exact fun c hc => Option.some.inj hc ▸ hafter

namespace World
variable {heap : Heap} {w : World}

/-- What an operation makes, and what it makes it from. -/
inductive Makes (w : World) : Op → Object → Prop
  | schema (making : Schema.Making) : Makes w (.schema making) (.schema (making.apply w.clock))
  | bind (s : Schema) : Makes w (.bind s) (.config (.fresh s))
  | found (name : String) : Makes w (.found name) (.owner (.new name w.clock))
  | derive {k : Nat} {o : Owner} (hk : w.held k = some (.owner o)) (name : String) :
      Makes w (.derive k name) (.owner (o.derive name w.clock))
  | spawn {k : Nat} {o : Owner} (hk : w.held k = some (.owner o)) :
      Makes w (.spawn k) (.inst ⟨o.name, o.config.duplicate, o.readers⟩)
  | copy {k : Nat} {x : Object} {c made : Config} {copy : Copy} (hk : w.held k = some x)
      (hc : x.config? = some c) (hmade : copy.apply c = .ok made) :
      Makes w (.copy k copy) (.config made)

theorem makes_of_made? {op : Op} {x : Object} (hx : w.made? op = some x) : w.Makes op x := by
  cases op with
  | schema making => exact Option.some.inj hx ▸ .schema making
  | bind s => exact Option.some.inj hx ▸ .bind s
  | found name => exact Option.some.inj hx ▸ .found name
  | act k a => cases hx
  | derive k name =>
      simp only [made?, derived?] at hx
      split at hx
      · next o hk => exact Option.some.inj hx ▸ .derive hk name
      · cases hx
  | spawn k =>
      simp only [made?] at hx
      split at hx
      · next o hk =>
          rw [← Option.some.inj hx, Owner.spawn, Owner.config_build]
          exact .spawn hk
      · cases hx
  | copy k copy =>
      obtain ⟨y, hk, hy⟩ := Option.bind_eq_some_iff.1 hx
      obtain ⟨made, hm, rfl⟩ := Option.map_eq_some_iff.1 hy
      obtain ⟨c, hc, hm⟩ := Option.bind_eq_some_iff.1 hm
      exact .copy hk hc (Except.eq_ok_of_toOption hm)

def Genuine (w : World) : Prop :=
  ∀ k x, w.held k = some x → x.Genuine

namespace Genuine

theorem reads (h : w.Genuine) (hs : w.Stamped heap) {c : Config} (hc : w.Reads c) :
    c.Genuine := by
  obtain ⟨k, x, outer, walk, hk, hx, hd⟩ := hc
  exact ((h k x hk).config (hs.objects k x hk) hx).descend hd

theorem declare {k : Nat} {o : Owner} {d : Declaration} (h : w.Genuine) (hs : w.Stamped heap)
    (hk : w.held k = some (.owner o)) (hd : d.TakesIn w.Shows) :
    (Object.owner (o.declare d).state).Genuine := by
  have ho : (Object.owner o).Genuine := h k _ hk
  have hstamped : o.Stamped heap k := hs.objects k _ hk
  cases hf : (o.declare d).fault with
  | some fault =>
      rw [Owner.declare_failed hf]
      exact ho
  | none =>
      obtain ⟨heap', hgrows, hafter⟩ := hs.declare hk hd
      intro c hc
      obtain ⟨held, hheld, rfl⟩ := Owner.exists_of_current_declare hf hc
      exact (ho held hheld).rebind ((hstamped.current held hheld).known.mono hgrows.kept)
        hafter.known

theorem act {k : Nat} {x : Object} {a : Act} (h : w.Genuine) (hs : w.Stamped heap)
    (hk : w.held k = some x) (ha : Op.Drawn w (.act k a)) : (x.act a).state.Genuine := by
  have hx := h k x hk
  by_cases hd : ∃ d, a = .declare d
  · obtain ⟨d, rfl⟩ := hd
    cases x with
    | owner o => exact h.declare hs hk ha
    | schema | config | inst => exact hx
  · refine hx.act (hs.objects k x hk) (fun d he => hd ⟨d, he⟩) fun walk other he => ?_
    obtain rfl := he
    exact h.reads hs ha

theorem made {op : Op} {x : Object} (h : w.Genuine) (hs : w.Stamped heap) (hop : op.Drawn w)
    (hx : w.Makes op x) : x.Genuine := by
  cases hx with
  | schema making => exact trivial
  | bind s => exact genuine_fresh (hs.shows hop).proper
  | found name => exact fun _ hc => nomatch hc
  | @derive k o hk name =>
      have ho : (Object.owner o).Genuine := h k _ hk
      intro c hc
      obtain ⟨held, hheld, rfl⟩ := Owner.exists_of_current_derive hc
      exact (ho held hheld).duplicate
  | @spawn k o hk =>
      have ho : o.config.Genuine := (h k _ hk).config (hs.objects k _ hk) rfl
      exact ho.duplicate
  | @copy k y c made copy hk hc hmade =>
      have hstamped := hs.objects k y hk
      refine ((h k y hk).config hstamped hc).copy (hstamped.config hc) hmade fun s he => ?_
      obtain ⟨walk, making⟩ := copy
      obtain rfl : making = .rebind s := he
      exact hs.shows hop

theorem step {op : Op} (h : w.Genuine) (hs : w.Stamped heap) (hop : op.Drawn w) :
    (w.step op).Genuine := by
  intro k x hx
  by_cases hk : k = w.clock
  · rw [hk, held_step_clock] at hx
    exact h.made hs hop (makes_of_made? hx)
  · obtain ⟨y, hy, hcall⟩ := act_of_held_step hk hx
    rcases hcall with rfl | ⟨a, rfl, rfl | rfl⟩
    · exact h k x hy
    · exact h.act hs hy hop
    · exact (h k y hy).act (hs.objects k y hy) (fun _ he => nomatch he) fun _ _ he => nomatch he

theorem after {ops : List Op} (h : w.Genuine) (hs : w.Stamped heap) (hops : w.Drawn ops) :
    (w.after ops).Genuine := by
  induction ops generalizing w heap with
  | nil => exact h
  | cons op rest ih =>
      obtain ⟨heap', hafter⟩ := hs.step hops.1
      exact ih (h.step hs hops.1) hafter hops.2

end Genuine

theorem genuine_empty : empty.Genuine := fun _ _ hk => nomatch hk

/-- What a drawn run leaves to be read is genuine, and its schemas stand in one heap. -/
theorem genuine_of_reads {ops : List Op} {c : Config} (hops : empty.Drawn ops)
    (hc : (empty.after ops).Reads c) : ∃ heap, c.Stamped heap ∧ c.Genuine := by
  obtain ⟨heap, hs⟩ := stamped_empty.after hops
  exact ⟨heap, hs.reads hc, (genuine_empty.after stamped_empty hops).reads hs hc⟩

end World
end SettingsTree
