import Mathlib.Data.Fintype.EquivFin
import SettingsTree.Proofs.World.Answers
import SettingsTree.Proofs.World.Bonds
import SettingsTree.Proofs.World.Laziness
import SettingsTree.Proofs.World.Omission

/-!
# Rejected reads

Reading by name alone asks for the configuration before it asks whether there is such a reader.
So a read that is rejected builds the configuration of an owner all the same, and the owner
refuses declarations from then on. Nobody can tell that the read took place if the configuration
was built before, or if the next call on the owner builds it anyway. In all other cases the owner
can be asked.
-/
namespace SettingsTree

/-- The second object is the first one with authors under other numbers, or an owner with the
same schema that can be asked nothing that the first one answers otherwise. -/
inductive Object.Resembles (σ : Nat → Nat) : Object → Object → Prop
  | renamed (x : Object) : Resembles σ x (x.rename σ)
  | owner {o o' : Owner} (schema : o'.schema = o.schema.rename σ) (view : o'.view = o.view) :
      Resembles σ (.owner o) (.owner o')

namespace Object.Resembles
variable {σ : Nat → Nat} {held held' : Option Object}

theorem rel_renamed (held : Option Object) :
    Option.Rel (Resembles σ) held (held.map (Object.rename σ)) := by
  cases held with
  | none => exact .none
  | some x => exact .some (.renamed x)

theorem rel_of_alike (hσ : σ.Injective) (h : Option.Rel (Object.Alike True) held held') :
    Option.Rel (Resembles σ) held (held'.map (Object.rename σ)) := by
  cases h with
  | none => exact .none
  | some hxy =>
      refine .some ?_
      cases hxy with
      | refl => exact .renamed _
      | owner alike built =>
          refine .owner (congrArg (Schema.rename σ) alike.schema.symm) ?_
          rw [Owner.view_rename hσ, alike.view (built trivial)]

theorem bind_view? (hσ : σ.Injective) (h : Option.Rel (Resembles σ) held held') :
    held'.bind Object.view? = held.bind Object.view? := by
  cases h with
  | none => rfl
  | some hxy =>
      cases hxy with
      | renamed => exact Object.view?_rename hσ _
      | owner _ view => exact congrArg some view

end Object.Resembles

theorem Object.state_read (x : Object) (name : String) :
    (x.act (.read name)).state = (x.act .look).state := by
  cases x <;> rfl

theorem Object.Within.look {bound : Nat} {x : Object} (h : x.Within bound) :
    (x.act .look).state.Within bound := by
  intro σ hσ hkeep
  have hcall := Object.call_rename hσ x (.act .look)
  rw [h σ hσ hkeep] at hcall
  exact hcall.symm

namespace Owner
variable {o : Owner} {a : Act}

theorem build_of_configured (h : o.isConfigured = true) : o.build = o := by
  obtain ⟨c, hc⟩ := Option.isSome_iff_exists.1 h
  have hconfig : o.config = c := by rw [config, hc]
  rw [build, hconfig, ← hc]

theorem act_build (hd : ∀ d, a ≠ .declare d) :
    (o.build.act a).fault = (o.act a).fault ∧ (o.build.act a).state = (o.act a).state := by
  refine ⟨?_, ?_⟩
  · cases a with
    | declare d => exact absurd rfl (hd d)
    | edit | replace | configure =>
        simp only [act, configure, edit, Attempt.fault_into, config_build]
    | finalize | read | look => rfl
  · rw [o.build.state_act hd, o.state_act hd, config_build]
    rfl

theorem reply_build {call : Call} (hd : ∀ d, call.toAct ≠ .declare d) :
    (Object.owner o.build).reply call = (Object.owner o).reply call ∧
      (Object.owner o.build).call call = (Object.owner o).call call := by
  obtain ⟨hfault, hstate⟩ := act_build (o := o) hd
  have hcall : (Object.owner o.build).call call = (Object.owner o).call call :=
    congrArg Object.owner hstate
  have hmade : call.made? (.owner o.build) = call.made? (.owner o) := by
    cases call with
    | act a => rfl
    | copy k => simp only [Call.made?, Object.config?, config_build]
  have hreply : ((Object.owner o.build).act call.toAct).fault =
      ((Object.owner o).act call.toAct).fault := hfault
  exact ⟨by simp only [Object.reply, hcall, hmade, hreply], hcall⟩

/-- An owner that is open refuses a declaration for other reasons than one that is built. -/
theorem fault_declare_ne_of_open (h : o.isConfigured = false) (d : Declaration) :
    (o.declare d).fault ≠ (o.build.declare d).fault := by
  have hbuilt : (o.build.declare d).fault = some (.alreadyDefined d.label) := by
    rw [fault_declare]
    rfl
  rw [hbuilt, fault_declare, if_neg (by simp [h])]
  split_ifs with hz
  · simp
  · intro hf
    cases Scope.misstated_declare d (by simpa using hz) hf

end Owner

namespace World
variable {w w' : World} {j k : Nat} {o : Owner} {op : Op} {ops later : List Op}

/-- With the later objects under their later numbers, the operation before the later ones cannot
be told from its absence: all objects answer alike, and in the end nothing tells them apart. -/
structure Unnoticed (w : World) (op : Op) (later : List Op) : Prop where
  answers : ∀ j, (w.step op).answersTo (shifted w.clock j)
    (later.map (Op.rename (shifted w.clock))) = w.answersTo j later
  objects : ∀ j, Option.Rel (Object.Resembles (shifted w.clock)) ((w.after later).held j)
    (((w.step op).after (later.map (Op.rename (shifted w.clock)))).held (shifted w.clock j))

theorem Unnoticed.congr {op' : Op} (h : w.Unnoticed op later) (hop : w.step op = w.step op') :
    w.Unnoticed op' later :=
  ⟨hop ▸ h.answers, hop ▸ h.objects⟩

/-- The first call on an object among the operations is no declaration, so that it builds the
configuration. -/
def UsesFirst (k : Nat) (ops : List Op) : Prop :=
  ∃ call rest, Chronicle.callsOn k ops = call :: rest ∧ ∀ d, call.toAct ≠ .declare d

theorem Contained.unnoticed_of_idle (h : w.Contained) (hidle : w.step op = w.tick none)
    (later : List Op) : w.Unnoticed op later := by
  obtain ⟨hnumbers, hanswers⟩ := h.after_idle hidle later
  refine ⟨hanswers, fun j => ?_⟩
  rw [hnumbers j]
  exact Object.Resembles.rel_renamed _

theorem step_read (w : World) (k : Nat) (name : String) :
    w.step (.act k (.read name)) = w.step (.act k .look) := by
  rw [step, step]
  cases w.held k with
  | none => rfl
  | some x => simp only [Object.state_read]

theorem held_look {x : Object} (hx : w.held k = some x) :
    (w.look k).held k = some (x.act .look).state := by
  simp only [look, hx, held_put, if_pos]

theorem clock_look (w : World) (k : Nat) : (w.look k).clock = w.clock := by
  rw [look]
  cases w.held k <;> rfl

theorem step_look_look (w : World) (k : Nat) :
    (w.look k).step (.act k .look) = (w.look k).tick none := by
  cases hx : w.held k with
  | none =>
      have hsame : w.look k = w := by simp only [look, hx]
      rw [hsame, step_look, hsame]
  | some x =>
      refine step_act_of_idle (held_look hx) ?_
      cases x with
      | schema | config | inst => rfl
      | owner o => exact congrArg Object.owner (Owner.build_of_configured rfl)

namespace Contained

theorem look (h : w.Contained) (k : Nat) : (w.look k).Contained := by
  cases hx : w.held k with
  | none => rwa [World.look, hx]
  | some x =>
      simp only [World.look, hx]
      refine ⟨fun j hj => ?_, fun j y hy => ?_⟩
      · rw [clock_put] at hj
        rw [held_put, if_neg (by have := h.lt_clock hx; omega), h.later j hj]
      · rw [held_put] at hy
        rw [clock_put]
        split_ifs at hy
        · exact Option.some.inj hy ▸ (h.within k x hx).look
        · exact h.within j y hy

/-- After a look that took its tick the world goes on as after one that took none. -/
theorem after_look (h : w.Contained) (k : Nat) (later : List Op) :
    let σ := shifted w.clock
    Renumbered σ ((w.look k).after later)
        ((w.step (.act k .look)).after (later.map (Op.rename σ))) ∧
      ∀ j, (w.step (.act k .look)).answersTo (σ j) (later.map (Op.rename σ)) =
        (w.look k).answersTo j later := by
  have hidle := (h.look k).after_idle (step_look_look w k) later
  rwa [step_look_look, ← step_look, clock_look] at hidle

end Contained

theorem exists_undeclared (ops : List Op) (j : Nat) :
    ∃ k, j ≠ k ∧ ∀ d, .act k (.declare d) ∉ ops := by
  obtain ⟨k, hk⟩ := Infinite.exists_notMem_finset
    (insert j (ops.filterMap fun op => op.call?.map Prod.fst).toFinset)
  rw [Finset.mem_insert, not_or, List.mem_toFinset] at hk
  refine ⟨k, Ne.symm hk.1, fun d hm => hk.2 (List.mem_filterMap.2 ⟨_, hm, rfl⟩)⟩

namespace Alike

/-- Where every owner is built in both worlds or in neither, nothing tells the worlds apart. -/
theorem answers_of_all (h : ∀ i, Alike i w w') (ops : List Op) (j : Nat) :
    w'.answersTo j ops = w.answersTo j ops ∧
      Option.Rel (Object.Alike True) ((w.after ops).held j) ((w'.after ops).held j) := by
  obtain ⟨i, hne, hd⟩ := exists_undeclared ops j
  have hobjects := ((h i).after hd).1.objects j
  rw [eq_true hne] at hobjects
  exact ⟨((h i).indistinct hd).answers j hne, hobjects⟩

theorem all_of_same (h : Alike k w w') (hk : w.held k = w'.held k) (i : Nat) : Alike i w w' := by
  refine ⟨h.clock, fun j => ?_⟩
  by_cases hj : j = k
  · rw [hj, hk]
    exact Object.Alike.rel_refl _
  · rcases h.both j with ⟨hn, hn'⟩ | ⟨x, y, hx, hy, hxy⟩
    · rw [hn, hn']
      exact .none
    · rw [hx, hy]
      exact .some (hxy.mono fun _ => hj)

/-- If the first call on the one owner builds it in both worlds, the other objects never tell
the worlds apart. -/
theorem answers_of_usesFirst (h : Alike k w w') (hk : k < w.clock)
    (ho : w.held k = some (.owner o)) (ho' : w'.held k = some (.owner o.build))
    (huses : UsesFirst k ops) (hj : j ≠ k) :
    w'.answersTo j ops = w.answersTo j ops ∧
      Option.Rel (Object.Alike True) ((w.after ops).held j) ((w'.after ops).held j) := by
  obtain ⟨call, calls, hcalls, hfirst⟩ := huses
  obtain ⟨start, rest, rfl, hstart⟩ := Chronicle.exists_first_call hcalls
  have hd : ∀ d, .act k (.declare d) ∉ start := by
    intro d hm
    have hcall := Chronicle.mem_callsOn hm
    rw [hstart, List.mem_singleton] at hcall
    exact hfirst d (hcall ▸ rfl)
  -- With the first call both worlds hold the same owner, and nothing is left of the difference.
  have hsame : (w.after start).held k = (w'.after start).held k := by
    rw [(answersTo_eq_answers hk ho start).2, (answersTo_eq_answers (h.clock ▸ hk) ho' start).2,
      hstart]
    exact congrArg some (Owner.reply_build hfirst).2.symm
  have hall := (h.after hd).1.all_of_same hsame
  obtain ⟨hanswers, hobjects⟩ := answers_of_all hall rest j
  rw [answersTo_append, answersTo_append, (h.indistinct hd).answers j hj, hanswers, after_append,
    after_append]
  exact ⟨rfl, hobjects⟩

end Alike

/-- A look at an owner whose configuration fits is never told if the next call on the owner builds
the configuration anyway. -/
theorem answers_look (hk : k < w.clock) (ho : w.held k = some (.owner o)) (hfits : o.Fitting)
    (huses : UsesFirst k later) (j : Nat) :
    (w.look k).answersTo j later = w.answersTo j later ∧
      Option.Rel (Object.Alike True) ((w.after later).held j)
        (((w.look k).after later).held j) := by
  have ho' : (w.look k).held k = some (.owner o.build) := held_look ho
  by_cases hj : j = k
  · subst hj
    have hlook : j < (w.look j).clock := by rwa [clock_look]
    obtain ⟨hanswers, hheld⟩ := answersTo_eq_answers hk ho later
    obtain ⟨hanswers', hheld'⟩ := answersTo_eq_answers hlook ho' later
    obtain ⟨call, calls, hcalls, hfirst⟩ := huses
    obtain ⟨hreply, hcall⟩ := Owner.reply_build (o := o) hfirst
    rw [hanswers, hanswers', hheld, hheld', hcalls]
    simp only [Object.answers, List.foldl_cons, hreply, hcall]
    exact ⟨trivial, Object.Alike.rel_refl _⟩
  · have halike : Alike k w (w.look k) := alike_look fun o₁ ho₁ _ => by
      obtain rfl := held_owner_inj ho ho₁
      exact hfits
    exact halike.answers_of_usesFirst hk ho ho' huses hj

/-- The answers of an owner that is open, and what can be asked of it in the end, tell whether it
was looked at, unless the next call on it builds its configuration. -/
theorem usesFirst_of_answers (hk : k < w.clock) (ho : w.held k = some (.owner o))
    (hopen : o.isConfigured = false)
    (hanswers : (w.look k).answersTo k later = w.answersTo k later)
    (hview : (((w.look k).after later).held k).bind Object.view? =
      ((w.after later).held k).bind Object.view?) :
    UsesFirst k later := by
  have ho' : (w.look k).held k = some (.owner o.build) := held_look ho
  obtain ⟨hreplies, hheld⟩ := answersTo_eq_answers hk ho later
  obtain ⟨hreplies', hheld'⟩ := answersTo_eq_answers ((clock_look w k).symm ▸ hk) ho' later
  rw [hreplies, hreplies'] at hanswers
  rw [hheld, hheld'] at hview
  cases hcalls : Chronicle.callsOn k later with
  | nil =>
      rw [hcalls] at hview
      have hstanding : o.build.isConfigured = o.isConfigured :=
        congrArg Owner.Standing.isConfigured
          (Option.some.inj (congrArg View.standing (Option.some.inj hview)))
      rw [hopen] at hstanding
      cases hstanding
  | cons call calls =>
      refine ⟨call, calls, hcalls, fun d hd => ?_⟩
      rw [hcalls] at hanswers
      have hfault := congrArg (fun replies => (List.head? replies).map Reply.fault) hanswers
      simp only [Object.answers, Object.reply, hd] at hfault
      exact Owner.fault_declare_ne_of_open hopen d (Option.some.inj hfault).symm

namespace Contained

theorem unnoticed_look (h : w.Contained)
    (hlook : ∀ j, (w.look k).answersTo j later = w.answersTo j later ∧
      Option.Rel (Object.Alike True) ((w.after later).held j) (((w.look k).after later).held j)) :
    w.Unnoticed (.act k .look) later := by
  obtain ⟨hnumbers, hanswers⟩ := h.after_look k later
  refine ⟨fun j => (hanswers j).trans (hlook j).1, fun j => ?_⟩
  rw [hnumbers j]
  exact Object.Resembles.rel_of_alike (shifted_injective _) (hlook j).2

theorem usesFirst_of_unnoticed (h : w.Contained) (ho : w.held k = some (.owner o))
    (hopen : o.isConfigured = false) (hlater : w.Unnoticed (.act k .look) later) :
    UsesFirst k later := by
  obtain ⟨hnumbers, hanswers⟩ := h.after_look k later
  have hσ := shifted_injective w.clock
  have hview := Object.Resembles.bind_view? hσ (hlater.objects k)
  rw [hnumbers k, Object.Resembles.bind_view? hσ (Object.Resembles.rel_renamed _)] at hview
  exact usesFirst_of_answers (h.lt_clock ho) ho hopen
    ((hanswers k).symm.trans (hlater.answers k)) hview

/-- A look at an owner goes unnoticed, whatever comes later, exactly if the owner was built before;
and in a given run also if the next call on it builds it. -/
theorem unnoticed_look_iff (h : w.Contained) (ho : w.held k = some (.owner o)) :
    ((∀ later, w.Unnoticed (.act k .look) later) ↔ o.isConfigured = true) ∧
      (o.Fitting → ∀ later, w.Unnoticed (.act k .look) later ↔
        o.isConfigured = true ∨ UsesFirst k later) := by
  have hidle : o.isConfigured = true → ∀ later, w.Unnoticed (.act k .look) later :=
    fun hbuilt => h.unnoticed_of_idle
      (step_act_of_idle ho (congrArg Object.owner (Owner.build_of_configured hbuilt)))
  have htold : ∀ later, w.Unnoticed (.act k .look) later →
      o.isConfigured = true ∨ UsesFirst k later := by
    intro later hlater
    cases hb : o.isConfigured with
    | true => exact .inl rfl
    | false => exact .inr (h.usesFirst_of_unnoticed ho hb hlater)
  refine ⟨⟨fun hall => (htold [] (hall [])).resolve_right ?_, hidle⟩, fun hfits later =>
    ⟨htold later, ?_⟩⟩
  · rintro ⟨_, _, hcalls, _⟩
    cases hcalls
  · rintro (hbuilt | huses)
    · exact hidle hbuilt later
    · exact h.unnoticed_look (answers_look (h.lt_clock ho) ho hfits huses)

end Contained

/-- Once an owner is looked at it is configured for good and refuses every declaration. -/
theorem refuses_after_look {before : List Op} (ho : (empty.after before).held k = some (.owner o))
    (later : List Op) :
    ∃ o', (((empty.after before).step (.act k .look)).after later).held k = some (.owner o') ∧
      o'.isConfigured = true ∧ ∀ d, (o'.declare d).fault = some (.alreadyDefined d.label) := by
  obtain ⟨l, hl, rfl⟩ := exists_line ho
  have hline := line?_append hl (.act k .look :: later)
  have hbuilt := (Owner.Line.configured_extend id (l := l.called (.act .look)) rfl
    (Chronicle.callsOn k later)).1
  have hcalls : Chronicle.callsOn k (.act k .look :: later) =
      .act .look :: Chronicle.callsOn k later := if_pos rfl
  rw [hcalls] at hline
  refine ⟨_, ?_, hbuilt, fun d => ?_⟩
  · rw [← after_cons, ← after_append]
    exact held_of_line? hline
  · rw [Owner.fault_declare, if_pos hbuilt]

/-- A rejected read through an instance can be left out of every run. One through an owner can be
left out, whatever comes later, exactly if the configuration of the owner was built before it. If
what the owner has inherited fits, the read can be left out of a given run exactly if the
configuration was built before, or if the next call on the owner builds it anyway. After the read
the owner refuses every declaration. -/
theorem rejected_read_unnoticed_iff {before : List Op} {k : Nat} {x : Object} {name : String}
    (hops : empty.Drawn before) (hx : (empty.after before).held k = some x)
    (hrejected : (x.act (.read name)).fault = some (.undefinedReader name)) :
    let w := empty.after before
    let read := Op.act k (.read name)
    (∃ i, x = .inst i ∧ ∀ later, w.Unnoticed read later) ∨
      ∃ o, x = .owner o ∧
        ((∀ later, w.Unnoticed read later) ↔ o.isConfigured = true) ∧
        (o.Fitting → ∀ later, w.Unnoticed read later ↔
          o.isConfigured = true ∨ UsesFirst k later) ∧
        ∀ later, ∃ o', ((w.step read).after later).held k = some (.owner o') ∧
          o'.isConfigured = true ∧
          ∀ d, (o'.declare d).fault = some (.alreadyDefined d.label) := by
  intro w read
  have hcontained : w.Contained := contained_empty.after hops
  cases x with
  | schema | config => cases hrejected
  | inst i => exact .inl ⟨i, rfl, hcontained.unnoticed_of_idle (step_act_of_idle hx rfl)⟩
  | owner o =>
      have hread : w.step read = w.step (.act k .look) := step_read w k name
      have hunnoticed : ∀ later, w.Unnoticed read later ↔ w.Unnoticed (.act k .look) later :=
        fun later => ⟨fun h => h.congr hread, fun h => h.congr hread.symm⟩
      obtain ⟨hall, hfits⟩ := hcontained.unnoticed_look_iff hx
      refine .inr ⟨o, rfl, ?_, fun h later => (hunnoticed later).trans (hfits h later), ?_⟩
      · exact (forall_congr' hunnoticed).trans hall
      · rw [hread]
        exact refuses_after_look hx

/-- An owner is assigned a value to a setting that is no reader, and a child is derived from it. -/
def bequeathed : List Op :=
  [.found "base", .act 0 (.declare (.setting "a" { fallback := some (.char '1') })),
    .act 0 (.edit ⟨[], .set "a" (.bool true)⟩), .derive 0 "child"]

/-- A read of the child is rejected. It goes unnoticed if the child is looked at before it declares
something, also by a grandchild that is derived in between, but not if the child declares
something first. -/
theorem rejected_read_unnoticed_iff_bequeathed :
    let w := empty.after bequeathed
    let read := Op.act 3 (.read "a")
    ∃ child, (empty.Drawn bequeathed ∧ w.held 3 = some (.owner child) ∧
        ((Object.owner child).act (.read "a")).fault = some (.undefinedReader "a") ∧
        child.Fitting) ∧
      w.Unnoticed read
        [.derive 3 "grandchild", .spawn 3, .act 3 (.declare (.setting "b" {}))] ∧
      ¬w.Unnoticed read
        [.derive 3 "grandchild", .act 3 (.declare (.setting "b" {})), .spawn 3] := by
  intro w read
  have hground : empty.Grounded bequeathed := ⟨trivial, trivial, trivial, trivial, trivial⟩
  have hfits : ∀ o, w.held 3 = some (.owner o) → o.Fitting := fun _ hk => hground.fitting hk
  obtain ⟨child, hchild, hrejected, hopen⟩ : ∃ child, w.held 3 = some (.owner child) ∧
      ((Object.owner child).act (.read "a")).fault = some (.undefinedReader "a") ∧
      child.isConfigured = false := ⟨_, rfl, rfl, rfl⟩
  rcases rejected_read_unnoticed_iff hground.drawn hchild hrejected with
    ⟨_, hinst, _⟩ | ⟨o, ho, _, hiff, _⟩
  · cases hinst
  · obtain rfl := Object.owner.inj ho
    have hruns := hiff (hfits child hchild)
    refine ⟨child, ⟨hground.drawn, hchild, hrejected, hfits child hchild⟩, (hruns _).2 ?_,
      fun h => ?_⟩
    · exact .inr ⟨.act .look, _, rfl, fun d hd => nomatch hd⟩
    · rcases (hruns _).1 h with hbuilt | ⟨call, calls, hcalls, huses⟩
      · cases hopen.symm.trans hbuilt
      · obtain ⟨rfl, _⟩ := List.cons.inj hcalls
        exact huses _ rfl

/-- A rejected read can be noticed: a declaration that would have gone through is refused. -/
theorem declaration_refused_after_rejected_read :
    ¬∀ (before later : List Op) (k : Nat) (x : Object) (name : String),
      empty.Drawn (before ++ later) → (empty.after before).held k = some x →
      (x.act (.read name)).fault = some (.undefinedReader name) →
      (empty.after before).Unnoticed (.act k (.read name)) later := by
  intro h
  have hanswers := (h (bequeathed.take 2) [.act 0 (.declare (.setting "b" {}))] 0 _ "a"
    ⟨trivial, trivial, trivial, trivial⟩ rfl rfl).answers 0
  have hfaults : ([some (.alreadyDefined "b")] : List (Option Fault)) = [none] :=
    congrArg (List.map Reply.fault) hanswers
  cases hfaults

end World
end SettingsTree
