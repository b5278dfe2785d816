import SettingsTree.Proofs.Config.Sealing
import SettingsTree.Proofs.World.Genuine

/-!
# What finalizing settles for good

Once the configuration of an object is sealed, no operation changes the object any more, except
for one that puts another configuration into it, and every write is refused. Finalizing seals a
configuration exactly if it was closed.

The configurations of owners and instances are closed, since they start out open and only calls
change them. An owner or an instance whose configuration was replaced is the exception: the other
one may have been frozen and then rebound to a schema with a new group, which finalizing it does
not reach.
-/
namespace SettingsTree

open Config

theorem Config.state_configure {c : Config} {edits : List Edit}
    (hf : (c.act (.configure edits)).fault = none) :
    (c.act (.configure edits)).state = (c.editAll edits).state.finalize := by
  simp only [Config.act, configure] at hf ⊢
  cases hfault : (c.editAll edits).fault with
  | none => rw [Attempt.andThen_of_fault_eq_none hfault]; rfl
  | some fault =>
      rw [Attempt.andThen_of_fault_eq_some hfault, hfault] at hf
      cases hf

namespace Object
variable {x : Object} {c : Config} {a : Act}

theorem fault_configure (x : Object) (hc : x.config? = some c) (edits : List Edit) :
    (x.act (.configure edits)).fault = (c.act (.configure edits)).fault := by
  cases x with
  | schema s => cases hc
  | config | owner | inst => rw [← Option.some.inj hc]; rfl

theorem config?_act (hc : x.config? = some c) (hd : ∀ d, a ≠ .declare d) :
    (x.act a).state.config? = some (c.act a).state := by
  cases x with
  | schema s => cases hc
  | config c => rw [← Option.some.inj hc]; rfl
  | owner o =>
      show some (o.act a).state.config = _
      rw [o.state_act hd, ← Option.some.inj hc]
      rfl
  | inst i =>
      show some (i.act a).state.config = _
      rw [i.state_act, ← Option.some.inj hc]

/-- The configuration is built and sealed. -/
def Settled : Object → Prop
  | schema _ => True
  | config c => c.Sealed ∧ c.Ordered
  | owner o => ∃ c, o.built = some c ∧ c.Sealed ∧ c.Ordered
  | inst i => i.config.Sealed ∧ i.config.Ordered

theorem Settled.act (h : x.Settled) (hr : ∀ walk other, a ≠ .replace walk other) :
    (x.act a).state = x := by
  have hact : ∀ {c : Config}, c.Sealed → c.Ordered → (c.act a).state = c := fun hs ho =>
    hs.changes_eq ho (changes_act _ hr)
  cases x with
  | schema s => rfl
  | config c => exact congrArg Object.config (hact h.1 h.2)
  | inst i =>
      show Object.inst (i.act a).state = _
      rw [i.state_act, hact h.1 h.2]
  | owner o =>
      obtain ⟨c, hb, hs, ho⟩ := h
      refine congrArg Object.owner ?_
      by_cases hd : ∃ d, a = .declare d
      · -- an owner that is built takes no declarations, frozen or not
        obtain ⟨d, rfl⟩ := hd
        have hfault : (o.declare d).fault = some (.alreadyDefined d.label) := by
          rw [Owner.fault_declare, Owner.isConfigured, hb]
          rfl
        exact Owner.declare_failed hfault
      · have hconfig : o.config = c := by rw [Owner.config, hb]
        rw [o.state_act fun d he => hd ⟨d, he⟩, hconfig, hact hs ho, ← hb]

/-- What is built of an owner or an instance is closed, and what an owner inherited is open. -/
def Closed : Object → Prop
  | schema _ | config _ => True
  | owner o => (∀ c, o.inherited = some c → c.Open) ∧ ∀ c, o.built = some c → c.Closed
  | inst i => i.config.Closed

theorem Closed.config (h : x.Closed) (hx : ∀ c, x ≠ .config c) (hc : x.config? = some c) :
    c.Closed := by
  cases x with
  | schema s => cases hc
  | config c => exact absurd rfl (hx c)
  | inst i => exact Option.some.inj hc ▸ h
  | owner o =>
      obtain rfl : o.config = c := Option.some.inj hc
      rw [Owner.config]
      split
      · next hb => exact h.2 _ hb
      · next hi => exact (open_rebind (h.1 _ hi) o.schema).closed
      · exact (open_fresh o.schema).closed

theorem Closed.act (h : x.Closed) (hr : ∀ walk other, a ≠ .replace walk other) :
    (x.act a).state.Closed := by
  cases x with
  | schema | config => exact trivial
  | inst i =>
      show Config.Closed (i.act a).state.config
      rw [i.state_act]
      exact Config.Closed.changes h (changes_act i.config hr)
  | owner o =>
      show Object.Closed (.owner (o.act a).state)
      by_cases hd : ∃ d, a = .declare d
      · obtain ⟨d, rfl⟩ := hd
        show Object.Closed (.owner (o.declare d).state)
        cases hf : (o.declare d).fault with
        | some fault =>
            rw [Owner.declare_failed hf]
            exact h
        | none =>
            obtain ⟨hb, scope, _, hstate⟩ := Owner.declare_done hf
            rw [hstate]
            refine ⟨fun c hc => ?_, fun c hc => ?_⟩
            · obtain ⟨old, hold, rfl⟩ := Option.map_eq_some_iff.1 hc
              exact open_rebind (h.1 old hold) scope.schema
            · simp only [hb] at hc
              cases hc
      · rw [o.state_act fun d he => hd ⟨d, he⟩]
        refine ⟨h.1, fun c hc => Option.some.inj hc ▸ ?_⟩
        have hclosed : o.config.Closed := h.config (fun _ he => nomatch he) rfl
        exact hclosed.changes (changes_act o.config hr)

end Object

namespace World
variable {w : World} {k : Nat} {x : Object} {c : Config} {op : Op} {ops : List Op}

/-- The answer to every question to the object is settled. -/
structure Final (w : World) (k : Nat) : Prop where
  /-- Nothing changes the object but putting another configuration into it. -/
  unchanged : ∀ later, (∀ walk other, .act k (.replace walk other) ∉ later) →
    (w.after later).held k = w.held k
  /-- A write is refused with the name of its leaf, wherever its walk leads. -/
  refused : ∀ x c, w.held k = some x → x.config? = some c →
    ∀ (path : Path) (raw : Value) (inner : Config), c.descend path.parents = .ok inner →
      c.setAt path raw = .failed c (.frozenConfig path.leaf)

theorem held_act (hk : w.held k = some x) (hlt : k < w.clock) (a : Act) :
    (w.step (.act k a)).held k = some (x.act a).state := by
  rw [held_step w _ (Nat.ne_of_lt hlt), hk]
  exact if_pos rfl

theorem held_step_of_settled (hk : w.held k = some x) (hlt : k < w.clock) (hx : x.Settled)
    (hop : ∀ walk other, op ≠ .act k (.replace walk other)) : (w.step op).held k = some x := by
  obtain ⟨y, hy⟩ := exists_held_step hk (Nat.ne_of_lt hlt) op
  obtain ⟨x', hk', hcall⟩ := act_of_held_step (Nat.ne_of_lt hlt) hy
  obtain rfl := Option.some.inj (hk.symm.trans hk')
  rw [hy]
  rcases hcall with rfl | ⟨a, rfl, rfl | rfl⟩
  · rfl
  · exact congrArg some (hx.act fun walk other he => hop walk other (he ▸ rfl))
  · exact congrArg some (hx.act fun _ _ he => nomatch he)

theorem held_after_of_settled (hk : w.held k = some x) (hlt : k < w.clock) (hx : x.Settled)
    (hops : ∀ walk other, .act k (.replace walk other) ∉ ops) :
    (w.after ops).held k = some x := by
  induction ops generalizing w with
  | nil => exact hk
  | cons op rest ih =>
      have hstep := held_step_of_settled hk hlt hx fun walk other he =>
        hops walk other (he ▸ List.mem_cons_self)
      refine ih hstep (by rw [clock_step]; omega) fun walk other hm => ?_
      exact hops walk other (List.mem_cons_of_mem _ hm)

/-- What an operation makes is closed, whatever it is made from. -/
theorem Makes.closed (hx : w.Makes op x) : x.Closed := by
  cases hx with
  | schema | bind | copy => exact trivial
  | found name => exact ⟨fun _ hc => (nomatch hc), fun _ hc => nomatch hc⟩
  | @derive k o hk name =>
      refine ⟨fun c hc => ?_, fun _ hc => nomatch hc⟩
      obtain ⟨parent, _, rfl⟩ := Option.map_eq_some_iff.1 hc
      exact open_duplicate parent
  | @spawn k o hk => exact (open_duplicate o.config).closed

/-- An object into which nothing else is put stays closed. -/
theorem closed_after (h : ∀ x, w.held k = some x → x.Closed)
    (hops : ∀ walk other, .act k (.replace walk other) ∉ ops)
    (hx : (w.after ops).held k = some x) : x.Closed := by
  induction ops generalizing w with
  | nil => exact h x hx
  | cons op rest ih =>
      refine ih (fun y hy => ?_) (fun walk other hm =>
        hops walk other (List.mem_cons_of_mem _ hm)) hx
      by_cases hk : k = w.clock
      · -- the object is made only now, and nothing is known of what held its number before
        rw [hk, held_step_clock] at hy
        exact (makes_of_made? hy).closed
      · obtain ⟨before, hb, hcall⟩ := act_of_held_step hk hy
        have hclosed := h before hb
        rcases hcall with rfl | ⟨a, rfl, rfl | rfl⟩
        · exact hclosed
        · refine hclosed.act fun walk other he => hops walk other ?_
          exact he ▸ List.mem_cons_self
        · exact hclosed.act fun _ _ he => nomatch he

/-- What is asked of an object is settled exactly if its configuration is sealed. -/
theorem final_iff_sealed (hk : w.held k = some x) (hlt : k < w.clock) (hc : x.config? = some c)
    (hb : ∀ o, x = .owner o → o.built = some c) (hg : c.Genuine) (ho : c.Ordered) :
    w.Final k ↔ c.Sealed := by
  constructor
  · intro h
    exact (sealed_iff_refuses hg ho).2 (h.refused x c hk hc)
  · intro hs
    have hx : x.Settled := by
      cases x with
      | schema s => trivial
      | config c' => exact Option.some.inj hc ▸ ⟨hs, ho⟩
      | owner o => exact ⟨c, hb o rfl, hs, ho⟩
      | inst i =>
          obtain rfl : i.config = c := Option.some.inj hc
          exact ⟨hs, ho⟩
    refine ⟨fun later hlater => (held_after_of_settled hk hlt hx hlater).trans hk.symm,
      fun x' c' hk' hc' => ?_⟩
    obtain rfl := Option.some.inj (hk.symm.trans hk')
    obtain rfl := Option.some.inj (hc.symm.trans hc')
    exact (sealed_iff_refuses hg ho).1 hs

/-- After a call that is no declaration the object is final exactly if the configuration that
the call leaves is sealed. -/
theorem final_act_iff {a : Act} (hops : empty.Drawn ops) (hk : (empty.after ops).held k = some x)
    (hc : x.config? = some c) (ha : Op.Drawn (empty.after ops) (.act k a))
    (hd : ∀ d, a ≠ .declare d) :
    ((empty.after ops).step (.act k a)).Final k ↔ (c.act a).state.Sealed := by
  obtain ⟨heap, hstamped⟩ := stamped_empty.after hops
  have hlt := hstamped.issued.lt_clock hk
  have hheld := held_act hk hlt a
  have hconfig := Object.config?_act hc hd
  have hdrawn : empty.Drawn (ops ++ [.act k a]) := drawn_append.2 ⟨hops, ha, trivial⟩
  have hreads : (empty.after (ops ++ [.act k a])).Reads (c.act a).state := by
    rw [after_append]
    exact ⟨k, _, _, [], hheld, hconfig, rfl⟩
  obtain ⟨_, hafter, hgenuine⟩ := genuine_of_reads hdrawn hreads
  refine final_iff_sealed hheld (by rw [clock_step]; omega) hconfig (fun o he => ?_) hgenuine
    hafter.ordered
  cases x with
  | schema | config | inst => cases he
  | owner o' =>
      obtain rfl : (o'.act a).state = o := Object.owner.inj he
      rw [o'.state_act hd, ← Option.some.inj hc]

/-- An owner or an instance is final once it was finalized or configured, exactly if what it
finalized was closed. That is always so unless a configuration was put into the object from
elsewhere. -/
theorem final_iff_closed (hops : empty.Drawn ops) (hk : (empty.after ops).held k = some x)
    (hc : x.config? = some c) :
    (((empty.after ops).step (.act k .finalize)).Final k ↔ c.Closed) ∧
      (∀ edits, (x.act (.configure edits)).fault = none →
        (((empty.after ops).step (.act k (.configure edits))).Final k ↔
          (c.editAll edits).state.Closed)) ∧
      ((∀ c, x ≠ .config c) → (∀ walk other, .act k (.replace walk other) ∉ ops) →
        c.Closed ∧ ∀ edits, (c.editAll edits).state.Closed) := by
  refine ⟨?_, fun edits hf => ?_, fun hx hreplace => ?_⟩
  · rw [final_act_iff (a := .finalize) hops hk hc trivial fun _ he => nomatch he]
    exact sealed_finalize_iff
  · rw [x.fault_configure hc] at hf
    rw [final_act_iff (a := .configure edits) hops hk hc trivial (fun _ he => nomatch he),
      Config.state_configure hf]
    exact sealed_finalize_iff
  · have hclosed : x.Closed := closed_after (w := .empty) (fun _ hy => nomatch hy) hreplace hk
    have hconfig := hclosed.config hx hc
    exact ⟨hconfig, fun edits => hconfig.changes (changes_editAll edits c)⟩

/-- A child declares a setting on its own. One of its groups is frozen alone. -/
def inheriting : List Op :=
  [.found "base", .act 0 (.declare (.nested "g" {} [.setting "x" { construct := some .wrap }])),
    .act 0 (.edit ⟨["g"], .finalize⟩), .derive 0 "child",
    .act 3 (.declare (.setting "a" { construct := some .wrap })),
    .act 3 (.edit ⟨["g"], .finalize⟩)]

/-- Finalizing the child is final, and so is configuring it. -/
theorem final_iff_closed_inheriting :
    let setting : List Edit := [⟨[], .set "a" (.bool true)⟩]
    ∃ (x : Object) (c : Config),
      (empty.Drawn inheriting ∧ (empty.after inheriting).held 3 = some x ∧
        x.config? = some c ∧ c.frozen = false ∧ (c.descend ["g"]).map Config.frozen = .ok true) ∧
      (x.act (.configure setting)).fault = none ∧
      ((empty.after inheriting).step (.act 3 .finalize)).Final 3 ∧
      ((empty.after inheriting).step (.act 3 (.configure setting))).Final 3 := by
  intro setting
  have hops : empty.Drawn inheriting :=
    ⟨trivial, ⟨trivial, trivial⟩, trivial, trivial, trivial, trivial, trivial⟩
  have hrun : ∃ o : Owner, (empty.after inheriting).held 3 = some (.owner o) ∧
      o.config.frozen = false ∧ (o.config.descend ["g"]).map Config.frozen = .ok true ∧
      ((Object.owner o).act (.configure setting)).fault = none := ⟨_, rfl, rfl, rfl, rfl⟩
  obtain ⟨o, hk, hz, hg, hf⟩ := hrun
  obtain ⟨hfinalize, hconfigure, halways⟩ := final_iff_closed hops hk rfl
  obtain ⟨hc, hall⟩ := halways (fun _ he => nomatch he) (by simp [inheriting])
  exact ⟨.owner o, o.config, ⟨hops, hk, rfl, hz, hg⟩, hf, hfinalize.2 hc,
    (hconfigure setting hf).2 (hall setting)⟩

/-- A configuration is frozen while its schema is empty, rebound to one with a group, and put
into an owner. -/
def reopened : List Op :=
  [.schema (.script .empty [.setting "a" { fallback := some (Registered.number 1) },
      .nested "g" {} [.setting "x" { fallback := some (Registered.number 1) }]]),
    .bind .empty, .act 1 .finalize, .copy 1 ⟨[], .rebind extended⟩,
    .found "base", .act 4 (.declare (.inclusion extended)),
    .act 4 (.replace [] ((fresh .empty).finalize.rebind extended))]

/-- Finalizing that owner does not settle anything about its group. -/
theorem write_after_finalize_goes_through :
    ¬∀ (ops : List Op) (k : Nat) (o : Owner), empty.Drawn ops →
      (empty.after ops).held k = some (.owner o) →
      ((empty.after ops).step (.act k .finalize)).Final k := by
  intro h
  have hops : empty.Drawn reopened := ⟨⟨.empty, trivial, ⟨trivial, trivial⟩, trivial⟩, .empty,
    trivial, .held (k := 0) rfl, trivial, .held (k := 0) rfl,
    ⟨3, _, _, [], rfl, rfl, rfl⟩, trivial⟩
  have hfinal := h reopened 4 _ hops rfl
  have hwrite := hfinal.refused _ _ rfl rfl ⟨["g"], "x"⟩ (Registered.number 2) _ rfl
  have hfault : none = some (Fault.frozenConfig "x") := congrArg Attempt.fault hwrite
  cases hfault

end World
end SettingsTree
