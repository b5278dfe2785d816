import SettingsTree.Proofs.Schema.Content
import SettingsTree.Proofs.Schema.Statements

/-!
# Taking in a script and running it

What a script declares can be collected in a schema of its own, which another schema then takes in.
Or the script can be run over the other schema from the start. As long as that one is not frozen,
it makes no difference: a name that the script says several times gets the place of its first
mention and the definition of its last one, whether or not it was there before. Hence a registered
script can be replaced by its statements wherever it is taken in.
-/
namespace SettingsTree

namespace Definition

theorem insert_insert_of_name_eq {d e : Definition} (h : e.name = d.name)
    (ds : List Definition) : d.insert (e.insert ds) = d.insert ds := by
  induction ds with
  | nil => rw [insert, insert, insert, if_pos h]
  | cons old rest ih =>
      rw [insert, insert]
      by_cases hold : old.name = d.name
      · rw [if_pos (hold.trans h.symm), if_pos hold, insert, if_pos h]
      · rw [if_neg fun he => hold (he.trans h), if_neg hold, insert, if_neg hold, ih]

/-- A definition that has its place already may be replaced before another one comes. -/
theorem insert_comm_of_mem {d e : Definition} {ds : List Definition} (hm : d.name ∈ ds.map name)
    (hne : e.name ≠ d.name) : d.insert (e.insert ds) = e.insert (d.insert ds) := by
  induction ds with
  | nil => cases hm
  | cons old rest ih =>
      by_cases hd : old.name = d.name
      · simp [insert, hd, Ne.symm hne]
      · have hrest : d.name ∈ rest.map name := by
          simpa [Ne.symm hd] using hm
        by_cases he : old.name = e.name
        · simp [insert, he, hne]
        · simp [insert, he, hd, ih hrest]

theorem insert_insertAll_comm {d : Definition} {theirs ours : List Definition}
    (hm : d.name ∈ ours.map name) (hn : d.name ∉ theirs.map name) :
    d.insert (insertAll theirs ours) = insertAll theirs (d.insert ours) := by
  induction theirs generalizing ours with
  | nil => rfl
  | cons e rest ih =>
      rw [List.map_cons, List.mem_cons, not_or] at hn
      have hmem : d.name ∈ (e.insert ours).map name := by
        rw [names_insert]
        split_ifs
        · exact hm
        · exact List.mem_append_left _ hm
      have hstep := ih hmem hn.2
      rw [insert_comm_of_mem hm (Ne.symm hn.1)] at hstep
      exact hstep

/-- A definition may be put among others before or after these are taken in. -/
theorem insertAll_insert (d : Definition) {theirs : List Definition}
    (hn : (theirs.map name).Nodup) (ours : List Definition) :
    insertAll (d.insert theirs) ours = d.insert (insertAll theirs ours) := by
  induction theirs generalizing ours with
  | nil => rfl
  | cons old rest ih =>
      rw [List.map_cons, List.nodup_cons] at hn
      rw [insert]
      split_ifs with hname
      · -- The old definition keeps the place of the name until the new one takes it.
        have hmem : d.name ∈ (old.insert ours).map name := by
          rw [names_insert]
          split_ifs with hold <;> simp [← hname, hold]
        have hcomm := insert_insertAll_comm hmem (hname ▸ hn.1)
        rw [insert_insert_of_name_eq hname] at hcomm
        exact hcomm.symm
      · exact ih hn.2 (old.insert ours)

theorem insertAll_insertAll (later : List Definition) {theirs : List Definition}
    (hn : (theirs.map name).Nodup) (ours : List Definition) :
    insertAll (insertAll later theirs) ours = insertAll later (insertAll theirs ours) := by
  induction later generalizing theirs with
  | nil => rfl
  | cons d rest ih =>
      have hstep := ih (nodup_insert d hn)
      rw [insertAll_insert d hn] at hstep
      exact hstep

end Definition

namespace Scope
variable {s : Schema} {scope : Scope}

/-- The schema after it took in what is declared in the scope. -/
def onto (s : Schema) (scope : Scope) : Scope :=
  ⟨⟨Definition.insertAll scope.schema.definitions s.definitions, s.frozen⟩, scope.supply⟩

/-- An open scope that lists no name twice, like all those a script starts from. -/
structure Growing (scope : Scope) : Prop where
  unfrozen : scope.schema.frozen = false
  distinct : scope.schema.names.Nodup

theorem growing_start (supply : Supply) : (start supply).Growing := ⟨rfl, List.nodup_nil⟩

theorem Growing.declare (h : scope.Growing) (d : Declaration) :
    (scope.declare d).state.Growing :=
  ⟨(ends_declare scope d).frozen_eq.trans h.unfrozen, (ends_declare scope d).nodup h.distinct⟩

theorem onto_start (scope : Scope) : (start scope.supply).onto scope.schema = scope := by
  obtain ⟨⟨definitions, frozen⟩, supply⟩ := scope
  rfl

theorem add_onto (hs : s.frozen = false) (h : scope.Growing) (supply : Supply) (name : String)
    (options : Options) (group : Option Schema) :
    (scope.onto s).add supply name options group =
      (scope.add supply name options group).into (onto s) := by
  have hopen : (scope.onto s).schema.frozen = false := hs
  unfold add
  cases Definition.build supply.stamp (some name) options.fallback
      (options.construct.getD .identity) options.reader group with
  | error fault => rfl
  | ok d =>
      have hins := Definition.insertAll_insert d h.distinct s.definitions
      simp only [Schema.declare_of_unfrozen h.unfrozen, Schema.declare_of_unfrozen hopen,
        leave_done]
      exact congrArg (fun ds => Attempt.done (Scope.mk ⟨ds, s.frozen⟩ supply.advance)) hins.symm

theorem incorporate_onto (hs : s.frozen = false) (h : scope.Growing) (supply : Supply)
    (other : Schema) :
    (scope.onto s).incorporate supply other = (scope.incorporate supply other).into (onto s) := by
  rw [incorporate_of_unfrozen h.unfrozen, incorporate_of_unfrozen hs]
  have hall := Definition.insertAll_insertAll other.definitions h.distinct s.definitions
  exact congrArg (fun ds => Attempt.done (Scope.mk ⟨ds, s.frozen⟩ supply)) hall.symm

/-- A statement makes the same of what took in the scope as of the scope itself. -/
theorem declare_onto (hs : s.frozen = false) (h : scope.Growing) (d : Declaration) :
    (scope.onto s).declare d = (scope.declare d).into (onto s) := by
  -- Blocks and registered scripts see nothing of the scope but its supply.
  have hsupply : (scope.onto s).supply = scope.supply := rfl
  cases d with
  | setting name options =>
      rw [declare, declare, hsupply]
      exact add_onto hs h scope.supply name options none
  | nested name options block =>
      rw [declare, declare, nest, nest, hsupply]
      split_ifs
      · rfl
      · rfl
      · cases (run (start scope.supply) block).toExcept with
        | error fault => rfl
        | ok inner => exact add_onto hs h inner.supply name options (some inner.schema)
  | inclusion other =>
      rw [declare, declare, hsupply]
      exact incorporate_onto hs h scope.supply other
  | group name script =>
      rw [declare, declare, takeIn, takeIn, hsupply]
      cases (run (start scope.supply) script).toExcept with
      | error fault => rfl
      | ok inner => exact incorporate_onto hs h inner.supply inner.schema
  | unregistered name =>
      rw [declare, declare]
      rfl

/-- Running a script over an open schema takes in what the script declares by itself. -/
theorem run_onto (hs : s.frozen = false) (h : scope.Growing) (script : List Declaration) :
    (scope.onto s).run script = (scope.run script).into (onto s) := by
  induction script generalizing scope with
  | nil =>
      rw [run, run]
      rfl
  | cons d rest ih =>
      rw [run, run, declare_onto hs h d]
      exact Attempt.into_andThen _ _ (ih (h.declare d))

theorem run_eq_into_onto (hopen : scope.schema.frozen = false) (script : List Declaration) :
    scope.run script = ((start scope.supply).run script).into (onto scope.schema) := by
  have hrun := run_onto hopen (growing_start scope.supply) script
  rwa [onto_start] at hrun

theorem toExcept_declare_group (hopen : scope.schema.frozen = false) (name : String)
    (script : List Declaration) :
    (scope.declare (.group name script)).toExcept = (scope.run script).toExcept := by
  rw [declare, takeIn, run_eq_into_onto hopen, Attempt.toExcept_into]
  cases (run (start scope.supply) script).toExcept with
  | error fault => rfl
  | ok inner =>
      simp only [incorporate_of_unfrozen hopen]
      rfl

theorem run_append (scope : Scope) (first second : List Declaration) :
    scope.run (first ++ second) = (scope.run first).andThen fun after => after.run second := by
  induction first generalizing scope with
  | nil =>
      rw [run]
      rfl
  | cons d rest ih =>
      rw [List.cons_append, run, run, Attempt.andThen_assoc]
      exact Attempt.andThen_congr (ih _)

theorem run_singleton (scope : Scope) (d : Declaration) : scope.run [d] = scope.declare d := by
  have hdone : (fun after : Scope => after.run []) = Attempt.done :=
    funext fun after => run.eq_1 after
  rw [run, hdone, Attempt.andThen_done]

end Scope

mutual

/-- The statement with all registered scripts in it replaced by their statements. -/
def Declaration.inlined : Declaration → List Declaration
  | .setting name options => [.setting name options]
  | .nested name options block => [.nested name options (Declaration.inlineAll block)]
  | .inclusion other => [.inclusion other]
  | .group _ script => Declaration.inlineAll script
  | .unregistered name => [.unregistered name]

def Declaration.inlineAll : List Declaration → List Declaration
  | [] => []
  | d :: rest => Declaration.inlined d ++ Declaration.inlineAll rest

end

theorem Declaration.inlineAll_append (first second : List Declaration) :
    inlineAll (first ++ second) = inlineAll first ++ inlineAll second := by
  induction first with
  | nil => rfl
  | cons d rest ih => rw [List.cons_append, inlineAll, inlineAll, ih, List.append_assoc]

namespace Scope
variable {s : Schema} {scope : Scope}

theorem toExcept_andThen_congr {a b : Attempt Scope} {next next' : Scope → Attempt Scope}
    (h : a.toExcept = b.toExcept)
    (hn : b.fault = none → (next b.state).toExcept = (next' b.state).toExcept) :
    (a.andThen next).toExcept = (b.andThen next').toExcept := by
  obtain ⟨before, _ | cause⟩ := a
  · obtain ⟨after, _ | fault⟩ := b
    · obtain rfl : before = after := Except.ok.inj h
      exact hn rfl
    · cases h
  · obtain ⟨after, _ | fault⟩ := b
    · cases h
    · exact h

mutual

theorem run_inlined : ∀ {scope : Scope} (d : Declaration), scope.schema.frozen = false →
    (scope.run d.inlined).toExcept = (scope.declare d).toExcept
  | scope, .setting name options, _ => by rw [Declaration.inlined, run_singleton]
  | scope, .nested name options block, _ => by
      have hblock : (run (start scope.supply) (Declaration.inlineAll block)).toExcept =
          (run (start scope.supply) block).toExcept := run_inlineAll block rfl
      rw [Declaration.inlined, run_singleton, declare, declare, nest, nest, hblock]
  | scope, .inclusion other, _ => by rw [Declaration.inlined, run_singleton]
  | scope, .group name script, hopen => by
      rw [Declaration.inlined, toExcept_declare_group hopen]
      exact run_inlineAll script hopen
  | scope, .unregistered name, _ => by rw [Declaration.inlined, run_singleton]

/-- Registered scripts can be replaced by their statements, in blocks and in each other too. -/
theorem run_inlineAll : ∀ {scope : Scope} (script : List Declaration),
    scope.schema.frozen = false →
    (scope.run (Declaration.inlineAll script)).toExcept = (scope.run script).toExcept
  | scope, [], _ => by rw [Declaration.inlineAll]
  | scope, d :: rest, hopen => by
      rw [Declaration.inlineAll, run_append, run]
      refine toExcept_andThen_congr (run_inlined d hopen) fun _ => run_inlineAll rest ?_
      exact (ends_declare scope d).frozen_eq.trans hopen

end

theorem unstamped_onto {inner inner' : Scope} (hs : s.frozen = false)
    (h : inner.content = inner'.content) :
    (inner.onto s).schema.unstamped = (inner'.onto s).schema.unstamped := by
  have htake : (incorporate ⟨s, inner.supply⟩ inner.supply inner.schema).into content =
      (incorporate ⟨s, inner.supply⟩ inner.supply inner'.schema).into content :=
    incorporate_content rfl h
  rw [incorporate_of_unfrozen hs, incorporate_of_unfrozen hs] at htake
  exact congrArg Attempt.state htake

/-- Running a script over an open schema and taking in what it declares by itself come to the
same, whatever stamps are given out: both fail with the fault of the script, or they say the same
at every depth, and are the same if the stamps are. Hence the statements of a registered script
can stand in its place. -/
theorem run_agrees_with_incorporate_compiled (hs : s.frozen = false) (script : List Declaration)
    (supply other : Supply) :
    (∀ fault, ((⟨s, supply⟩ : Scope).run script).fault = some fault ↔
      Schema.compile script other = .error fault) ∧
    (∀ inner, Schema.compile script other = .ok inner → ∃ after taken,
      (⟨s, supply⟩ : Scope).run script = .done after ∧
        s.incorporate inner.schema = .done taken ∧
        after.schema.names = taken.names ∧ after.schema.unstamped = taken.unstamped ∧
        (supply = other → after = ⟨taken, inner.supply⟩)) ∧
    (∀ before name statements rest,
      ((⟨s, supply⟩ : Scope).run (before ++ .group name statements :: rest)).toExcept =
        ((⟨s, supply⟩ : Scope).run (before ++ statements ++ rest)).toExcept) ∧
    ((⟨s, supply⟩ : Scope).run (Declaration.inlineAll script)).toExcept =
      ((⟨s, supply⟩ : Scope).run script).toExcept := by
  have hrun : (⟨s, supply⟩ : Scope).run script = ((start supply).run script).into (onto s) :=
    run_eq_into_onto hs script
  have hcontent : ((start supply).run script).into content =
      ((start other).run script).into content := run_content script rfl
  refine ⟨fun fault => ?_, fun inner hinner => ?_, fun before name statements rest => ?_,
    run_inlineAll script hs⟩
  · have hfault := congrArg Attempt.fault hcontent
    rw [Attempt.fault_into, Attempt.fault_into] at hfault
    rw [hrun, Attempt.fault_into, Schema.compile, Attempt.toExcept_eq_error, hfault]
  · rw [Schema.compile] at hinner
    rcases Attempt.toExcept_of_into_eq hcontent with ⟨fault, _, hfault⟩ | ⟨t, _, ht, hok, hsame⟩
    · cases hinner.symm.trans hfault
    · obtain rfl := Except.ok.inj (hinner.symm.trans hok)
      have hunstamped := unstamped_onto hs hsame
      refine ⟨t.onto s, (inner.onto s).schema, ?_, Schema.incorporate_of_unfrozen hs _, ?_,
        hunstamped, ?_⟩
      · rw [hrun, Attempt.toExcept_eq_ok.1 ht]
        rfl
      · rw [← Schema.names_unstamped, hunstamped, Schema.names_unstamped]
      · rintro rfl
        rw [Except.ok.inj (ht.symm.trans hinner)]
        rfl
  · have hinlined : Declaration.inlineAll (before ++ .group name statements :: rest) =
        Declaration.inlineAll (before ++ statements ++ rest) := by
      simp only [Declaration.inlineAll_append, Declaration.inlineAll, Declaration.inlined,
        List.append_assoc]
    rw [← run_inlineAll _ hs, hinlined, run_inlineAll _ hs]

def single : Schema :=
  ⟨[⟨.declared 0 0, "a", none, .identity, false, none⟩], false⟩

/-- A script that says `c` twice and takes in another one that says `a`. -/
def overlapping : List Declaration :=
  [.setting "c" {}, .group "more" [.nested "g" {} [.setting "x" {}], .setting "a" {}],
    .setting "c" { reader := true }]

/-- By itself the script lists `a` last, but the schema has `a` in its place already. -/
theorem run_agrees_with_incorporate_compiled_overlapping :
    single.frozen = false ∧ ∃ inner after taken,
      Schema.compile overlapping ⟨2, 0⟩ = .ok inner ∧
        (⟨single, ⟨1, 0⟩⟩ : Scope).run overlapping = .done after ∧
        single.incorporate inner.schema = .done taken ∧
        inner.schema.names = ["c", "g", "a"] ∧ after.schema.names = ["a", "c", "g"] ∧
        after.schema.unstamped = taken.unstamped := by
  obtain ⟨-, hcompiled, -⟩ :=
    run_agrees_with_incorporate_compiled (rfl : single.frozen = false) overlapping ⟨1, 0⟩ ⟨2, 0⟩
  obtain ⟨after, taken, hrun, htaken, -, hsame, -⟩ := hcompiled _ rfl
  refine ⟨rfl, _, after, taken, rfl, hrun, htaken, rfl, ?_, hsame⟩
  obtain rfl : _ = after := congrArg Attempt.state hrun
  rfl

end Scope
end SettingsTree
