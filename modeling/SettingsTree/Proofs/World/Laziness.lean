import SettingsTree.Proofs.World.Alike

/-!
# When a configuration is built

A look at an owner builds its configuration, if it is not built yet. From then on the owner
refuses declarations and says that it is configured. Where no more declarations on it are to
come, nothing else tells whether the look took place: not the values, the faults, the frozen
groups, the names, the readers, and not what becomes of declarations on owners derived from
it, before the look or after.

An owner that inherited a configuration with another schema than its own is the exception:
the look rebinds it, and a child takes on what it finds.
-/
namespace SettingsTree

/-- The view without what it tells about whether the configuration is built. -/
def View.asBuilt (v : View) : View :=
  { v with standing := v.standing.map fun s => { s with isConfigured := true } }

def Reply.onView (f : View → View) (r : Reply) : Reply :=
  { r with view := f r.view }

namespace Object
variable {x y : Object} {strict : Prop}

theorem Alike.view?_asBuilt (h : Object.Alike strict x y) :
    x.view?.map View.asBuilt = y.view?.map View.asBuilt := by
  cases h with
  | refl => rfl
  | @owner o o' alike =>
      have hview : o.view.asBuilt = o'.view.asBuilt := by
        simp only [View.asBuilt, Owner.view, alike.name, alike.schema, alike.readers,
          alike.config, Owner.sharesParentSchema, alike.origin, Option.map_some]
      exact congrArg some hview

theorem map_greeting (f : View → View) (x : Object) :
    x.greeting.map (Reply.onView f) =
      (x.view?.map f).toList.map fun view => ⟨none, none, view⟩ := by
  rw [greeting]
  cases x.view? <;> rfl

theorem map_reply (f : View → View) (x : Object) (call : Call) :
    (x.reply call).map (Reply.onView f) =
      ((x.call call).view?.map f).toList.map fun view =>
        ⟨(x.act call.toAct).fault, call.made? x, view⟩ := by
  rw [reply]
  cases (x.call call).view? <;> rfl

theorem Alike.made? (h : Object.Alike strict x y) (call : Call) : call.made? x = call.made? y := by
  cases call with
  | act a => rfl
  | copy k => simp only [Call.made?, h.config?]

end Object

namespace World

/-- The world after a look at an object, without the tick that the operation takes. -/
def look (w : World) (k : Nat) : World :=
  match w.held k with
  | some x => w.put k (x.act .look).state
  | none => w

theorem step_look (w : World) (k : Nat) : w.step (.act k .look) = (w.look k).tick none := by
  rw [step, look]
  cases w.held k <;> rfl

variable {j k : Nat} {w w' : World}

/-- A look at an owner changes nothing but how the owner holds its configuration, if what the
owner inherited was bound to its schema. -/
theorem alike_look
    (hfits : ∀ o, w.held k = some (.owner o) → o.isConfigured = false → o.Fitting) :
    Alike k w (w.look k) := by
  rw [look]
  split
  · next x hx =>
      refine ⟨rfl, fun j => ?_⟩
      rw [held_put]
      split_ifs with he
      · rw [he, hx]
        cases x with
        | owner o => exact .some (.owner (.build (hfits o hx)) fun hne => absurd rfl hne)
        | schema | config | inst => exact .some (.refl _)
      · exact Object.Alike.rel_refl _
  · exact ⟨rfl, fun j => Object.Alike.rel_refl _⟩

namespace Alike

theorem replies (h : Alike k w w') {op : Op} (hd : ∀ d, op ≠ .act k (.declare d))
    {f : View → View}
    (hf : ∀ x y, Object.Alike (j ≠ k) x y → x.view?.map f = y.view?.map f) :
    (w.replies j op).map (Reply.onView f) = (w'.replies j op).map (Reply.onView f) := by
  rw [World.replies, World.replies, ← h.clock]
  by_cases hj : j = w.clock
  · rw [if_pos hj, if_pos hj]
    rcases (h.step hd).both j with ⟨hn, hn'⟩ | ⟨x, y, hx, hy, hxy⟩
    · rw [hn, hn']
    · simp only [hx, hy, Option.toList_some, List.flatMap_singleton, Object.map_greeting,
        hf x y hxy]
  · rw [if_neg hj, if_neg hj]
    cases hc : op.call? with
    | none => rfl
    | some called =>
        obtain ⟨i, call⟩ := called
        simp only
        split_ifs with he
        · subst he
          rcases h.both j with ⟨hn, hn'⟩ | ⟨x, y, hx, hy, hxy⟩
          · rw [hn, hn']
          · obtain ⟨hfault, hcall⟩ := hxy.act (strict_of_call hd hc)
            have hview : (x.call call).view?.map f = (y.call call).view?.map f := hf _ _ hcall
            simp only [hx, hy, Option.toList_some, List.flatMap_singleton, Object.map_reply,
              hview, hfault, hxy.made?]
        · rfl

/-- Alike worlds stay alike in a run without declarations on the one owner. -/
theorem after {ops : List Op} (h : Alike k w w') (hd : ∀ d, .act k (.declare d) ∉ ops) :
    Alike k (w.after ops) (w'.after ops) ∧
      ∀ (j : Nat) (f : View → View),
        (∀ x y, Object.Alike (j ≠ k) x y → x.view?.map f = y.view?.map f) →
        (w.answersTo j ops).map (Reply.onView f) = (w'.answersTo j ops).map (Reply.onView f) := by
  induction ops generalizing w w' with
  | nil => exact ⟨h, fun _ _ _ => rfl⟩
  | cons op rest ih =>
      have hfirst : ∀ d, op ≠ .act k (.declare d) := fun d he => hd d (he ▸ List.mem_cons_self)
      obtain ⟨hafter, hanswers⟩ :=
        ih (h.step hfirst) fun d hm => hd d (List.mem_cons_of_mem _ hm)
      refine ⟨hafter, fun j f hf => ?_⟩
      rw [answersTo, answersTo, List.map_append, List.map_append, hanswers j f hf,
        h.replies hfirst hf]

end Alike

/-- In the course of some operations two worlds answer the same, and they can be asked the
same in the end, but for whether one owner is built. -/
structure Indistinct (k : Nat) (w w' : World) (ops : List Op) : Prop where
  answers : ∀ j, j ≠ k → w'.answersTo j ops = w.answersTo j ops
  ownAnswers : (w'.answersTo k ops).map (Reply.onView View.asBuilt) =
    (w.answersTo k ops).map (Reply.onView View.asBuilt)
  views : ∀ j, j ≠ k →
    ((w'.after ops).held j).bind Object.view? = ((w.after ops).held j).bind Object.view?
  ownView : (((w'.after ops).held k).bind Object.view?).map View.asBuilt =
    (((w.after ops).held k).bind Object.view?).map View.asBuilt
  others : ∀ j x, (∀ o, x ≠ .owner o) →
    ((w'.after ops).held j = some x ↔ (w.after ops).held j = some x)

theorem onView_id (replies : List Reply) : replies.map (Reply.onView id) = replies :=
  List.map_id replies

namespace Alike

theorem views (h : Alike k w w') {f : View → View}
    (hf : ∀ x y, Object.Alike (j ≠ k) x y → x.view?.map f = y.view?.map f) :
    ((w.held j).bind Object.view?).map f = ((w'.held j).bind Object.view?).map f := by
  rcases h.both j with ⟨hn, hn'⟩ | ⟨x, y, hx, hy, hxy⟩
  · rw [hn, hn']
  · rw [hx, hy]
    exact hf x y hxy

theorem others (h : Alike k w w') {x : Object} (hx : ∀ o, x ≠ .owner o) :
    w'.held j = some x ↔ w.held j = some x := by
  rcases h.both j with ⟨hn, hn'⟩ | ⟨y, z, hy, hz, hyz⟩
  · rw [hn, hn']
  · rw [hy, hz]
    cases hyz with
    | refl => exact Iff.rfl
    | owner =>
        exact ⟨fun he => absurd (Option.some.inj he).symm (hx _),
          fun he => absurd (Option.some.inj he).symm (hx _)⟩

theorem indistinct {ops : List Op} (h : Alike k w w') (hd : ∀ d, .act k (.declare d) ∉ ops) :
    Indistinct k w w' ops := by
  obtain ⟨hafter, hanswers⟩ := h.after hd
  have hid : ∀ j, j ≠ k → ∀ x y, Object.Alike (j ≠ k) x y → x.view?.map id = y.view?.map id :=
    fun j hj x y hxy => congrArg (Option.map id) (hxy.view? hj)
  refine ⟨fun j hj => ?_, ?_, fun j hj => ?_, ?_, fun j x hx => hafter.others hx⟩
  · have hall := hanswers j id (hid j hj)
    rw [onView_id, onView_id] at hall
    exact hall.symm
  · exact (hanswers k View.asBuilt fun x y hxy => hxy.view?_asBuilt).symm
  · have hall := hafter.views (hid j hj)
    rw [Option.map_id_apply, Option.map_id_apply] at hall
    exact hall.symm
  · exact (hafter.views fun x y hxy => hxy.view?_asBuilt).symm

end Alike

/-- Nobody can tell whether there was a look at an owner at some point of a run after which
there are no declarations on it, except by asking that owner whether it is configured. If the
owner was open at that point, what it inherited must have been bound to its schema. -/
theorem look_indistinct {before later : List Op}
    (hfits : ∀ o, (empty.after before).held k = some (.owner o) → o.isConfigured = false →
      o.Fitting)
    (hd : ∀ d, .act k (.declare d) ∉ later) :
    Indistinct k (empty.after before) ((empty.after before).look k) later :=
  (alike_look hfits).indistinct hd

/-- A child inherits a value and declares a setting of its own. -/
def upToLook : List Op :=
  [.found "base", .act 0 (.declare (.setting "a" { construct := some .wrap })),
    .act 0 (.edit ⟨[], .set "a" .unit⟩), .derive 0 "child",
    .act 3 (.declare (.setting "b" { fallback := some (.char 'b'), reader := true }))]

/-- A grandchild declares a setting too and is assigned a value; then the child is. -/
def fromLook : List Op :=
  [.derive 3 "grandchild", .act 5 (.declare (.setting "c" {})), .spawn 5,
    .act 5 (.edit ⟨[], .set "c" (.bool true)⟩), .act 3 (.read "b")]

theorem grounded_upToLook : empty.Grounded upToLook :=
  ⟨trivial, trivial, trivial, trivial, trivial, trivial⟩

/-- After a look at the child it is built earlier than without the look, and yet the answers
are the same. -/
theorem look_indistinct_child :
    ((∀ o, (empty.after upToLook).held 3 = some (.owner o) → o.isConfigured = false →
        o.Fitting) ∧ (∀ d, .act 3 (.declare d) ∉ fromLook)) ∧
      Indistinct 3 (empty.after upToLook) ((empty.after upToLook).look 3) fromLook ∧
      (∃ o o', (empty.after upToLook).held 3 = some (.owner o) ∧
        ((empty.after upToLook).look 3).held 3 = some (.owner o') ∧
        o.isConfigured = false ∧ o'.isConfigured = true) ∧
      ((empty.after upToLook).answersTo 5 fromLook).map
          (fun reply => reply.view.config.value ⟨[], "a"⟩) =
        List.replicate 4 (.ok (.seq [.unit])) := by
  have hfits : ∀ o, (empty.after upToLook).held 3 = some (.owner o) → o.isConfigured = false →
      o.Fitting := fun _ hk _ => grounded_upToLook.fitting hk
  have hd : ∀ d, .act 3 (.declare d) ∉ fromLook := by simp [fromLook]
  exact ⟨⟨hfits, hd⟩, look_indistinct hfits hd, ⟨_, _, rfl, rfl, rfl, rfl⟩, rfl⟩

/-- A grandchild takes in the schema that the configuration of its grandparent has. -/
def takenIn : List Op :=
  [.derive 6 "grandchild", .act 7 (.declare (.inclusion foreign)), .act 7 .look]

/-- In a run that puts a configuration in the place of one with another schema a look can be
noticed. -/
theorem look_noticed_after_another_schema :
    ¬∀ (before later : List Op) (k : Nat), empty.Drawn (before ++ later) →
      (∀ d, .act k (.declare d) ∉ later) →
      Indistinct k (empty.after before) ((empty.after before).look k) later := by
  intro h
  have hdrawn : empty.Drawn ((usurped ++ [.derive 3 "child"]) ++ takenIn) :=
    ⟨⟨.empty, trivial, trivial⟩, .held (k := 0) rfl, trivial, trivial, trivial,
      ⟨1, _, _, [], rfl, rfl, rfl⟩, trivial, trivial, .held (k := 0) rfl, trivial, trivial⟩
  have hviews := (h _ takenIn 6 hdrawn (by simp [takenIn])).views 7 (by decide)
  have hvalues := congrArg (Option.map fun v : View => v.config.value ⟨[], "a"⟩) hviews
  have hread : some (Except.ok (.char '5') : Except Fault Value) = some (.ok (.char '9')) := hvalues
  cases hread

end World
end SettingsTree
