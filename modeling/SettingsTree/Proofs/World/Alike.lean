import SettingsTree.Proofs.World.Inheritance

/-!
# Worlds that differ in when a configuration is built

Two owners are alike if they differ in nothing but how their configuration is held: built,
inherited, or still to be made from the schema. What can be read through them is the same,
and it stays the same under every operation on both, as long as neither of them is asked to
tell whether its configuration is built. Owners tell it by refusing declarations, so a
declaration is made only where both are built or both are open.

The ways of holding a configuration agree because a fresh configuration stays fresh when it
is duplicated or rebound.
-/
namespace SettingsTree

open Config

/-- The owners differ at most in how they hold their configuration: the first one may have
none where the second one has a fresh one. -/
structure Owner.Alike (o o' : Owner) : Prop where
  name : o.name = o'.name
  schema : o.schema = o'.schema
  origin : o.origin = o'.origin
  readers : o.readers = o'.readers
  supply : o.supply = o'.supply
  config : o.config = o'.config
  current : o.current? = o'.current? ∨ o.current? = none ∧ o'.current? = some (.fresh o.schema)

theorem Owner.config_of_open {o : Owner} (h : o.isConfigured = false) :
    o.config =
      match o.current? with
      | some c => c.rebind o.schema
      | none => .fresh o.schema := by
  rw [config_eq, h]
  rfl

/-- Open owners that hold a fresh configuration, or none, read the same. -/
theorem Owner.config_eq_of_open {o o' : Owner} (h : o.isConfigured = false)
    (h' : o'.isConfigured = false) (hs : o.schema = o'.schema)
    (hc : o.current? = o'.current? ∨ o.current? = none ∧ o'.current? = some (.fresh o.schema)) :
    o.config = o'.config := by
  rw [config_of_open h, config_of_open h', ← hs]
  rcases hc with hc | ⟨hnone, hfresh⟩
  · rw [hc]
  · rw [hnone, hfresh]
    exact (rebind_fresh o.schema o.schema).symm

namespace Owner.Alike
variable {o o' : Owner}

/-- Building the configuration of an owner changes only how it is held, if what was inherited
was bound to the schema of the owner. -/
theorem build (h : o.isConfigured = false → o.Fitting) : o.Alike o.build := by
  refine ⟨rfl, rfl, rfl, rfl, rfl, (config_build o).symm, ?_⟩
  have hbuild : o.build.current? = some o.config := rfl
  rw [hbuild]
  cases hb : o.built with
  | some c =>
      have hconfig : o.config = c := by rw [Owner.config, hb]
      left
      rw [hconfig, current?, hb, Option.some_or]
  | none =>
      have hopen : o.isConfigured = false := by simp [isConfigured, hb]
      cases hc : o.current? with
      | some c => exact .inl (by rw [(h hopen).config_of_current hc])
      | none => exact .inr ⟨rfl, by rw [config_of_open hopen, hc]⟩

theorem derive (h : o.Alike o') (name : String) (author : Nat) :
    (o.derive name author).Alike (o'.derive name author) := by
  have hcurrent : (o.derive name author).current? = (o'.derive name author).current? ∨
      (o.derive name author).current? = none ∧
        (o'.derive name author).current? = some (.fresh o.schema) := by
    rw [current_derive, current_derive]
    rcases h.current with hc | ⟨hnone, hfresh⟩
    · exact .inl (by rw [hc])
    · rw [hnone, hfresh, Option.map_some, duplicate_fresh]
      exact .inr ⟨rfl, rfl⟩
  exact ⟨rfl, h.schema, rfl, h.readers, rfl, config_eq_of_open rfl rfl h.schema hcurrent, hcurrent⟩

theorem spawn (h : o.Alike o') : o.spawn.1 = o'.spawn.1 := by
  simp only [Owner.spawn, config_build, h.name, h.readers, h.config]

theorem view (h : o.Alike o') (hb : o.isConfigured = o'.isConfigured) : o.view = o'.view := by
  simp only [Owner.view, h.name, h.schema, h.readers, h.config, hb, sharesParentSchema, h.origin]

theorem act (h : o.Alike o') {a : Act} (hd : ∀ d, a ≠ .declare d) :
    (o.act a).fault = (o'.act a).fault ∧ (o.act a).state.Alike (o'.act a).state ∧
      (o.act a).state.isConfigured = (o'.act a).state.isConfigured := by
  refine ⟨?_, ?_, ?_⟩
  · cases a with
    | declare d => exact absurd rfl (hd d)
    | edit | replace | configure =>
        simp only [Owner.act, Owner.configure, Owner.edit, Attempt.fault_into, h.config]
    | finalize | look => rfl
    | read name => simp only [Owner.act, Owner.read, config_build, h.config, h.readers]
  · rw [o.state_act hd, o'.state_act hd, h.config]
    exact ⟨h.name, h.schema, h.origin, h.readers, h.supply, rfl, .inl rfl⟩
  · rw [o.state_act hd, o'.state_act hd]
    rfl

theorem declare_fault (h : o.Alike o') (hb : o.isConfigured = o'.isConfigured)
    (d : Declaration) : (o.declare d).fault = (o'.declare d).fault := by
  rw [o.fault_declare, o'.fault_declare, hb, h.schema, h.supply]

/-- A declaration has the same outcome if both owners are built or both are open. -/
theorem declare (h : o.Alike o') (hb : o.isConfigured = o'.isConfigured) (d : Declaration) :
    (o.declare d).state.Alike (o'.declare d).state ∧
      (o.declare d).state.isConfigured = (o'.declare d).state.isConfigured := by
  have hfault := h.declare_fault hb d
  cases hf : (o.declare d).fault with
  | some fault =>
      rw [Owner.declare_failed hf, Owner.declare_failed (hfault.symm.trans hf)]
      exact ⟨h, hb⟩
  | none =>
      obtain ⟨hn, scope, hscope, hstate⟩ := Owner.declare_done hf
      obtain ⟨hn', scope', hscope', hstate'⟩ := Owner.declare_done (hfault.symm.trans hf)
      rw [h.schema, h.supply, hscope'] at hscope
      obtain rfl : scope' = scope := congrArg Attempt.state hscope
      have hopen : (o.declare d).state.isConfigured = false := by simp [hstate, isConfigured, hn]
      have hopen' : (o'.declare d).state.isConfigured = false := by
        simp [hstate', isConfigured, hn']
      have hschema : (o.declare d).state.schema = (o'.declare d).state.schema := by
        rw [hstate, hstate']
      have hcurrent : (o.declare d).state.current? = (o'.declare d).state.current? ∨
          (o.declare d).state.current? = none ∧ (o'.declare d).state.current? =
            some (.fresh (o.declare d).state.schema) := by
        have hc := h.current
        simp only [current?, hn, hn', Option.none_or] at hc
        simp only [hstate, hstate', current?, hn, hn', Option.none_or]
        rcases hc with hc | ⟨hnone, hfresh⟩
        · exact .inl (by rw [hc])
        · rw [hnone, hfresh, Option.map_some, rebind_fresh]
          exact .inr ⟨rfl, rfl⟩
      refine ⟨⟨?_, hschema, ?_, ?_, ?_, config_eq_of_open hopen hopen' hschema hcurrent,
        hcurrent⟩, hopen.trans hopen'.symm⟩
      · rw [hstate, hstate']
        exact h.name
      · rw [hstate, hstate', h.origin]
      · rw [hstate, hstate', h.readers]
      · rw [hstate, hstate']

end Owner.Alike

/-- The objects are the same, or owners that are alike; if `strict`, then both or neither of
them are built. -/
inductive Object.Alike (strict : Prop) : Object → Object → Prop
  | refl (x : Object) : Alike strict x x
  | owner {o o' : Owner} (alike : o.Alike o')
      (built : strict → o.isConfigured = o'.isConfigured) : Alike strict (.owner o) (.owner o')

namespace Object.Alike
variable {strict : Prop} {x y : Object}

theorem config? (h : Object.Alike strict x y) : x.config? = y.config? := by
  cases h with
  | refl => rfl
  | owner alike => exact congrArg some alike.config

theorem rel_refl (made : Option Object) : Option.Rel (Object.Alike strict) made made := by
  cases made with
  | none => exact .none
  | some x => exact .some (.refl x)

theorem mono {weaker : Prop} (hw : weaker → strict) (h : Object.Alike strict x y) :
    Object.Alike weaker x y := by
  cases h with
  | refl => exact .refl x
  | owner alike built => exact .owner alike fun hs => built (hw hs)

theorem view? (h : Object.Alike strict x y) (hs : strict) : x.view? = y.view? := by
  cases h with
  | refl => rfl
  | owner alike built => exact congrArg some (alike.view (built hs))

/-- A call has the same outcome on both objects and leaves them alike. A declaration needs
both to be built or both to be open. -/
theorem act (h : Object.Alike strict x y) {a : Act} (hd : ∀ d, a = .declare d → strict) :
    (x.act a).fault = (y.act a).fault ∧ Object.Alike strict (x.act a).state (y.act a).state := by
  cases h with
  | refl => exact ⟨rfl, .refl _⟩
  | owner alike built =>
      by_cases ha : ∃ d, a = .declare d
      · obtain ⟨d, rfl⟩ := ha
        have hb := built (hd d rfl)
        obtain ⟨hstate, hbuilt⟩ := alike.declare hb d
        exact ⟨alike.declare_fault hb d, .owner hstate fun _ => hbuilt⟩
      · obtain ⟨hfault, hstate, hbuilt⟩ := alike.act fun d he => ha ⟨d, he⟩
        exact ⟨hfault, .owner hstate fun _ => hbuilt⟩

end Object.Alike

namespace World

def made? (w : World) : Op → Option Object
  | .schema making => some (.schema (making.apply w.clock))
  | .bind s => some (.config (.fresh s))
  | .found name => some (.owner (.new name w.clock))
  | .derive parent name => w.derived? parent name
  | .spawn k =>
      match w.held k with
      | some (.owner o) => some (.inst o.spawn.1)
      | _ => none
  | .copy k copy =>
      (w.held k).bind fun x => (x.config?.bind fun c => (copy.apply c).toOption).map .config
  | .act _ _ => none

theorem held_step_clock (w : World) (op : Op) : (w.step op).held w.clock = w.made? op := by
  cases op with
  | schema | bind | found | derive => exact if_pos rfl
  | spawn k =>
      simp only [step, made?]
      cases w.held k with
      | none => exact if_pos rfl
      | some x => cases x <;> exact if_pos rfl
  | copy k copy =>
      simp only [step, made?]
      cases w.held k <;> exact if_pos rfl
  | act k a =>
      simp only [step, made?]
      cases w.held k <;> exact if_pos rfl

/-- The worlds hold the same objects but for owners that are alike. Only the owner with the
given number may be built in one of them and open in the other. -/
structure Alike (k : Nat) (w w' : World) : Prop where
  clock : w.clock = w'.clock
  objects : ∀ j, Option.Rel (Object.Alike (j ≠ k)) (w.held j) (w'.held j)

namespace Alike
variable {j k : Nat} {w w' : World}

theorem both (h : Alike k w w') (j : Nat) :
    (w.held j = none ∧ w'.held j = none) ∨
      ∃ x y, w.held j = some x ∧ w'.held j = some y ∧ Object.Alike (j ≠ k) x y := by
  have hj := h.objects j
  cases hx : w.held j <;> cases hy : w'.held j <;> rw [hx, hy] at hj
  · exact .inl ⟨rfl, rfl⟩
  · cases hj
  · cases hj
  · cases hj with
    | some hxy => exact .inr ⟨_, _, rfl, rfl, hxy⟩

/-- What an operation makes in the two worlds is alike, and built in both or in neither. -/
theorem made (h : Alike k w w') (op : Op) :
    Option.Rel (Object.Alike True) (w.made? op) (w'.made? op) := by
  cases op with
  | schema making =>
      rw [made?, made?, h.clock]
      exact Object.Alike.rel_refl _
  | bind s => exact Object.Alike.rel_refl _
  | found name =>
      rw [made?, made?, h.clock]
      exact Object.Alike.rel_refl _
  | derive parent name =>
      rw [made?, made?, derived?, derived?]
      rcases h.both parent with ⟨hn, hn'⟩ | ⟨x, y, hx, hy, hxy⟩
      · rw [hn, hn']
        exact .none
      · rw [hx, hy, h.clock]
        cases hxy with
        | owner alike => exact .some (.owner (alike.derive name w'.clock) fun _ => rfl)
        | refl => exact Object.Alike.rel_refl _
  | spawn j =>
      rw [made?, made?]
      rcases h.both j with ⟨hn, hn'⟩ | ⟨x, y, hx, hy, hxy⟩
      · rw [hn, hn']
        exact .none
      · rw [hx, hy]
        cases hxy with
        | owner alike =>
            simp only [alike.spawn]
            exact Object.Alike.rel_refl _
        | refl => exact Object.Alike.rel_refl _
  | copy j copy =>
      rw [made?, made?]
      rcases h.both j with ⟨hn, hn'⟩ | ⟨x, y, hx, hy, hxy⟩
      · rw [hn, hn']
        exact .none
      · rw [hx, hy, Option.bind_some, Option.bind_some, hxy.config?]
        exact Object.Alike.rel_refl _
  | act => exact .none

theorem strict_of_call {op : Op} {call : Call} (hd : ∀ d, op ≠ .act k (.declare d))
    (hc : op.call? = some (j, call)) (d : Declaration) (hcall : call.toAct = .declare d) :
    j ≠ k :=
  fun he => hd d (he ▸ Op.eq_of_declares hc hcall)

/-- Alike worlds stay alike under every operation but a declaration on the one owner. -/
theorem step (h : Alike k w w') {op : Op} (hd : ∀ d, op ≠ .act k (.declare d)) :
    Alike k (w.step op) (w'.step op) := by
  refine ⟨by rw [clock_step, clock_step, h.clock], fun j => ?_⟩
  by_cases hj : j = w.clock
  · have hmade := h.made op
    rw [hj, held_step_clock]
    rw [h.clock, held_step_clock]
    cases hx : w.made? op <;> cases hy : w'.made? op <;> rw [hx, hy] at hmade
    · exact .none
    · cases hmade
    · cases hmade
    · cases hmade with
      | some hxy => exact .some (hxy.mono fun _ => trivial)
  · rw [held_step w op hj, held_step w' op (h.clock ▸ hj)]
    cases hc : op.call? with
    | none => exact h.objects j
    | some called =>
        obtain ⟨i, call⟩ := called
        simp only
        split_ifs with he
        · subst he
          rcases h.both j with ⟨hn, hn'⟩ | ⟨x, y, hx, hy, hxy⟩
          · rw [hn, hn']
            exact .none
          · rw [hx, hy]
            exact .some (hxy.act (strict_of_call hd hc)).2
        · exact h.objects j

end Alike
end World
end SettingsTree
