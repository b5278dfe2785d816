import SettingsTree.Constructor.Catalogue
import SettingsTree.Proofs.Config.Frames
import SettingsTree.Proofs.Config.Merged
import SettingsTree.Proofs.Config.Reload
import SettingsTree.Proofs.Config.Sealing
import SettingsTree.Proofs.Schema.Batches

/-!
# Batches as sequences of single writes

Where nothing is frozen, a batch of the shape of the schema does what the assignments that it
consists of do one after the other. They are applied up to the first one that its constructor
refuses, in whatever group that is; this one and all later ones have no effect.
-/
namespace SettingsTree.Config

variable {c inner : Config} {s t : Schema} {name : String} {d : Definition} {path other : Path}
  {raw v : Value} {fault : Fault} {writes : List (Path × Value)}

theorem withValue_withValue (c : Config) (name : String) (first second : Value) :
    (c.withValue name first).withValue name second = c.withValue name second :=
  congrArg (Config.mk _ · _ _) (Table.insert_insert name first second c.values)

theorem withGroup_withGroup (c : Config) (name : String) (first second : Config) :
    (c.withGroup name first).withGroup name second = c.withGroup name second :=
  congrArg (Config.mk _ _ · _) (Table.insert_insert name first second c.groups)

/-- A well-formed configuration of a schema in which nothing is frozen. -/
structure Ready (s : Schema) (c : Config) : Prop where
  schema : c.schema = s
  wellFormed : c.WellFormed
  opened : c.Open

namespace Ready

theorem changes {c' : Config} {journal : List Entry} (h : Ready s c) (m : Changes c c' journal)
    (hf : c.Framed c') : Ready s c' :=
  ⟨m.schema.trans h.schema, h.wellFormed.changes m, h.opened.framed hf⟩

theorem set (h : Ready s c) (name : String) (raw : Value) : Ready s (c.set name raw).state :=
  h.changes (changes_set c name raw) (framed_set c name raw)

theorem group (h : Ready s c) (hl : s.lookup name = some d) (hg : d.group = some t) :
    ∃ inner, Table.find? name c.groups = some inner ∧ Ready t inner := by
  obtain ⟨hs, hc, hopen⟩ := h
  obtain ⟨inner, hf, hschema⟩ := hc.shaped.group_of_lookup (hs ▸ hl) hg
  exact ⟨inner, hf, hschema, hc.inside hf, hopen.inside hf⟩

end Ready

theorem framed_setAt (c : Config) (path : Path) (raw : Value) :
    c.Framed (c.setAt path raw).state := by
  obtain ⟨parents, leaf⟩ := path
  induction parents generalizing c with
  | nil => exact framed_set c leaf raw
  | cons name rest ih =>
      rw [setAt, within]
      cases hn : c.nested name with
      | error fault => exact .refl c
      | ok inner => exact .withGroup (nested_eq_ok.1 hn).2 (ih inner)

theorem changes_setAt (c : Config) (path : Path) (raw : Value) :
    ∃ journal, Changes c (c.setAt path raw).state journal :=
  ⟨_, changes_within (fun inner => changes_set inner path.leaf raw) path.parents c⟩

theorem Ready.setAt (h : Ready s c) (path : Path) (raw : Value) :
    Ready s (c.setAt path raw).state := by
  obtain ⟨_, m⟩ := changes_setAt c path raw
  exact h.changes m (framed_setAt c path raw)

section Sequences

theorem setEach_append (c : Config) (first second : List (Path × Value)) :
    c.setEach (first ++ second) =
      (c.setEach first).andThen fun after => after.setEach second := by
  induction first generalizing c with
  | nil => rfl
  | cons e rest ih =>
      rw [List.cons_append, setEach, setEach, Attempt.andThen_assoc]
      exact Attempt.andThen_congr (ih _)

theorem setAt_under (hl : c.schema.lookup name = some d)
    (hf : Table.find? name c.groups = some inner) (path : Path) (raw : Value) :
    c.setAt (path.under name) raw = (inner.setAt path raw).into (c.withGroup name) := by
  rw [setAt, Path.under, within, nested_eq_ok.2 ⟨⟨d, hl⟩, hf⟩]
  rfl

theorem setEach_under (ho : c.Ordered) (hl : c.schema.lookup name = some d)
    (hf : Table.find? name c.groups = some inner) (writes : List (Path × Value)) :
    c.setEach (writes.map fun (path, v) => (path.under name, v)) =
      (inner.setEach writes).into (c.withGroup name) := by
  induction writes generalizing c inner with
  | nil => exact congrArg Attempt.done (ho.withGroup_self hf).symm
  | cons e rest ih =>
      obtain ⟨_, m⟩ := changes_setAt inner e.1 e.2
      have hordered := ho.withGroup name ((ho.inside hf).changes m)
      rw [List.map_cons, setEach, setEach, setAt_under hl hf]
      refine Attempt.into_andThen _ _ ((ih hordered hl (Table.find?_insert_self ..)).trans ?_)
      rw [Attempt.into, Attempt.into, withGroup_withGroup]

/-- If each entry is a sequence of single writes, so is the batch. -/
theorem Ready.setAll_eq_setEach {t : Table Value} (hc : Ready s c)
    (h : ∀ entry ∈ t, ∀ c, Ready s c →
      c.set entry.1 entry.2 = c.setEach (s.assignmentsAt entry.1 entry.2)) :
    c.setAll (Value.entriesOf t) =
      c.setEach (t.flatMap fun entry => s.assignmentsAt entry.1 entry.2) := by
  induction t generalizing c with
  | nil => rfl
  | cons head rest ih =>
      obtain ⟨name, raw⟩ := head
      obtain ⟨hhead, hrest⟩ := List.forall_mem_cons.1 h
      rw [setAll_entriesOf_cons, List.flatMap_cons, setEach_append, ← hhead c hc]
      exact Attempt.andThen_congr (ih (hc.set name raw) hrest)

/-- A batch is the sequence of its assignments. -/
theorem Ready.update_eq_setEach {batch : Value} (hb : s.Takes batch) (hc : Ready s c) :
    c.update batch = c.setEach (s.assignments batch) := by
  induction hb generalizing c with
  | intro s t sorted declared inside ih =>
      rw [update_entriesOf, Schema.assignments, Schema.assignmentsOf_entriesOf]
      refine hc.setAll_eq_setEach fun entry he c hc => ?_
      obtain ⟨name, raw⟩ := entry
      have hf := sorted.find?_of_mem he
      obtain ⟨d, hl⟩ := declared name raw hf
      have hlookup : c.schema.lookup name = some d := hc.schema ▸ hl
      cases hg : d.group with
      | none =>
          rw [Schema.assignmentsAt_of_single hl hg, setEach]
          exact (Attempt.andThen_done _).symm
      | some inner =>
          obtain ⟨group, hgroup, hready⟩ := hc.group hl hg
          -- The shape of the group makes the value a map.
          obtain ⟨_, u, _, _, _⟩ := inside name raw d inner hf hl hg
          rw [Schema.assignmentsAt_of_group hl hg,
            setEach_under hc.wellFormed.ordered hlookup hgroup, ← ih name _ d inner hf hl hg hready]
          exact hc.wellFormed.set_of_group hc.opened.here (hready.schema ▸ hg) hlookup
            (nested_eq_ok.2 ⟨⟨d, hlookup⟩, hgroup⟩) _

theorem editAll_setPath (h : ∀ e ∈ writes, Path.parse e.1.join = e.1) :
    c.editAll (writes.map fun e => ⟨[], .setPath e.1.join e.2⟩) = c.setEach writes := by
  induction writes generalizing c with
  | nil => rfl
  | cons e rest ih =>
      obtain ⟨hhead, hrest⟩ := List.forall_mem_cons.1 h
      have hfirst : Edit.apply ⟨[], .setPath e.1.join e.2⟩ c = c.setAt e.1 e.2 := by
        show c.setAt (Path.parse e.1.join) e.2 = _
        rw [hhead]
      rw [List.map_cons, editAll, hfirst, setEach]
      exact Attempt.andThen_congr (ih hrest)

end Sequences

section Effects

theorem getAt_withGroup_self (hl : c.schema.lookup name = some d) (inner : Config)
    (rest : List String) (leaf : String) :
    (c.withGroup name inner).getAt ⟨name :: rest, leaf⟩ = inner.getAt ⟨rest, leaf⟩ :=
  getAt_of_group (c := c.withGroup name inner) hl (Table.find?_insert_self ..)

theorem getAt_withGroup_of_ne {first : String} (hne : first ≠ name) (inner : Config)
    (rest : List String) (leaf : String) :
    (c.withGroup name inner).getAt ⟨first :: rest, leaf⟩ = c.getAt ⟨first :: rest, leaf⟩ := by
  simp only [getAt, descend, nested, definition, withGroup, Table.find?_insert_of_ne hne]

/-- A value that the constructor accepts is read at its path, and all other single settings read
as before. -/
theorem Ready.getAt_setAt (h : Ready s c) (hd : s.at? path = some d) (hg : d.group = none)
    (hv : d.resolve (some raw) = .ok v) :
    (c.setAt path raw).fault = none ∧ (c.setAt path raw).state.getAt path = .ok v ∧
      ∀ other, s.HasSingle other → other ≠ path →
        (c.setAt path raw).state.getAt other = c.getAt other := by
  obtain ⟨parents, leaf⟩ := path
  induction parents generalizing c s with
  | nil =>
      have hl : c.schema.lookup leaf = some d := h.schema ▸ hd
      obtain rfl := (Schema.lookup_some hl).2
      have hset : c.setAt ⟨[], d.name⟩ raw = .done (c.withValue d.name v) := by
        show c.set d.name raw = _
        rw [set_of_setting (target_of_single h.opened.here hl hg), assign, hv]
      have hshaped := h.wellFormed.shaped.withValue hl hg v
      rw [hset]
      refine ⟨rfl, ?_, fun other hsingle hne => ?_⟩
      · have hread := hshaped.value_of_single hl hg
        rwa [Config.withValue, Table.find?_insert_self] at hread
      · obtain ⟨walk, last⟩ := other
        cases walk with
        | cons first rest => rfl
        | nil =>
            obtain ⟨e, he, heg⟩ := hsingle
            have hlast : last ≠ d.name := fun hsame => hne (hsame ▸ rfl)
            have hle : c.schema.lookup last = some e := h.schema ▸ he
            show (c.withValue d.name v).value last = c.value last
            rw [hshaped.value_of_single hle heg, h.wellFormed.shaped.value_of_single hle heg,
              Config.withValue, Table.find?_insert_of_ne hlast]
  | cons name rest ih =>
      obtain ⟨outer, t, hl, ht, hd⟩ := Schema.at?_cons_eq_some.1 hd
      obtain ⟨inner, hf, hinner⟩ := h.group hl ht
      have hlookup : c.schema.lookup name = some outer := h.schema ▸ hl
      obtain ⟨hfault, hread, hothers⟩ := ih hinner hd
      have hset := setAt_under hlookup hf ⟨rest, leaf⟩ raw
      rw [Path.under] at hset
      rw [hset]
      refine ⟨hfault, ?_, fun other hsingle hne => ?_⟩
      · rw [Attempt.state_into, getAt_withGroup_self hlookup]
        exact hread
      · obtain ⟨walk, last⟩ := other
        rw [Attempt.state_into]
        cases walk with
        | nil =>
            obtain ⟨e, he, heg⟩ := hsingle
            have hle : c.schema.lookup last = some e := h.schema ▸ he
            have hready := h.setAt ⟨name :: rest, leaf⟩ raw
            rw [hset] at hready
            show (c.withGroup name _).value last = c.value last
            rw [h.wellFormed.shaped.value_of_single hle heg]
            exact hready.wellFormed.shaped.value_of_single hle heg
        | cons first others =>
            by_cases hfirst : first = name
            · subst hfirst
              rw [getAt_withGroup_self hlookup, getAt_of_group hlookup hf]
              refine hothers ⟨others, last⟩ ((Schema.hasSingle_cons hl ht).1 hsingle)
                fun hsame => ?_
              obtain ⟨rfl, rfl⟩ := Path.mk.inj hsame
              exact hne rfl
            · exact getAt_withGroup_of_ne hfirst _ others last

theorem Ready.setAt_failed (h : Ready s c) (hd : s.at? path = some d) (hg : d.group = none)
    (hv : d.resolve (some raw) = .error fault) : c.setAt path raw = .failed c fault := by
  obtain ⟨parents, leaf⟩ := path
  induction parents generalizing c s with
  | nil =>
      have hl : c.schema.lookup leaf = some d := h.schema ▸ hd
      show c.set leaf raw = _
      rw [set_of_setting (target_of_single h.opened.here hl hg), assign, hv]
  | cons name rest ih =>
      obtain ⟨outer, t, hl, ht, hd⟩ := Schema.at?_cons_eq_some.1 hd
      obtain ⟨inner, hf, hinner⟩ := h.group hl ht
      have hset := setAt_under (h.schema ▸ hl) hf ⟨rest, leaf⟩ raw
      rw [ih hinner hd] at hset
      refine hset.trans ?_
      show Attempt.failed (c.withGroup name inner) fault = _
      rw [h.wellFormed.ordered.withGroup_self hf]

/-- The first writes are applied and the rest are not. If there is a rest, the constructor of
its first write has refused it. -/
structure StopsAt (c : Config) (applied rest : List (Path × Value)) (outcome : Attempt Config) :
    Prop where
  made : ∀ e ∈ applied, ∃ d v, c.schema.at? e.1 = some d ∧ d.resolve (some e.2) = .ok v ∧
    outcome.state.getAt e.1 = .ok v
  kept : ∀ path, c.schema.HasSingle path → path ∉ applied.map Prod.fst →
    outcome.state.getAt path = c.getAt path
  spared : ∀ e ∈ rest, outcome.state.getAt e.1 = c.getAt e.1
  through : rest = [] → outcome.fault = none
  refused : ∀ e later, rest = e :: later → ∃ d fault, c.schema.at? e.1 = some d ∧
    d.resolve (some e.2) = .error fault ∧ outcome.fault = some fault

/-- A sequence of writes at different paths stops at the first one that is refused. -/
theorem Ready.exists_stopsAt (h : Ready s c) (hsingle : ∀ e ∈ writes, s.HasSingle e.1)
    (hnodup : (writes.map Prod.fst).Nodup) :
    ∃ applied rest, writes = applied ++ rest ∧ c.StopsAt applied rest (c.setEach writes) := by
  induction writes generalizing c with
  | nil =>
      exact ⟨[], [], rfl, by simp, fun _ _ _ => rfl, by simp, fun _ => rfl,
        fun _ _ he => nomatch he⟩
  | cons e later ih =>
      obtain ⟨⟨d, hd, hg⟩, hlater⟩ := List.forall_mem_cons.1 hsingle
      obtain ⟨hfresh, hrest⟩ := List.nodup_cons.1 hnodup
      rw [setEach]
      cases hv : d.resolve (some e.2) with
      | error fault =>
          rw [h.setAt_failed hd hg hv]
          refine ⟨[], e :: later, rfl, by simp, fun _ _ _ => rfl, fun _ _ => rfl,
            (fun he => nomatch he), ?_⟩
          rintro _ _ ⟨⟩
          exact ⟨d, fault, h.schema ▸ hd, hv, rfl⟩
      | ok v =>
          obtain ⟨hfault, hread, hothers⟩ := h.getAt_setAt hd hg hv
          have hready := h.setAt e.1 e.2
          obtain ⟨applied, rest, hsplit, hstops⟩ := ih hready hlater hrest
          rw [Attempt.andThen_of_fault_eq_none hfault]
          have hschema : (c.setAt e.1 e.2).state.schema = c.schema :=
            hready.schema.trans h.schema.symm
          obtain ⟨hmade, hkept, hspared, hthrough, hrefused⟩ := hstops
          rw [hschema] at hmade hkept hrefused
          obtain rfl := hsplit
          rw [List.map_append, List.mem_append, not_or] at hfresh
          refine ⟨e :: applied, rest, rfl,
            List.forall_mem_cons.2 ⟨⟨d, v, h.schema ▸ hd, hv, ?_⟩, hmade⟩,
            fun path hs hm => ?_, fun e' he' => (hspared e' he').trans (hothers e'.1 ?_ ?_),
            hthrough, hrefused⟩
          · exact (hkept e.1 ⟨d, h.schema ▸ hd, hg⟩ hfresh.1).trans hread
          · rw [List.map_cons, List.mem_cons, not_or] at hm
            exact (hkept path hs hm.2).trans (hothers path (h.schema ▸ hs) hm.1)
          · exact hlater e' (List.mem_append_right applied he')
          · exact fun hsame => hfresh.2 (hsame ▸ List.mem_map_of_mem he')

/-- A batch of the shape of the schema does what its assignments do one after the other, and so
what calls with the texts of their paths do. They are applied up to the first one that its
constructor refuses; this one and all later ones leave their settings as they were. -/
theorem update_eq_setEach_assignments {batch : Value} (hc : c.WellFormed) (hopen : c.Open)
    (hb : c.schema.Takes batch) :
    c.update batch = c.setEach (c.schema.assignments batch) ∧
      (c.schema.Named → c.update batch =
        c.editAll ((c.schema.assignments batch).map fun e => ⟨[], .setPath e.1.join e.2⟩)) ∧
      ∃ applied rest, c.schema.assignments batch = applied ++ rest ∧
        c.StopsAt applied rest (c.update batch) := by
  have hready : Ready c.schema c := ⟨rfl, hc, hopen⟩
  have hupdate := hready.update_eq_setEach hb
  refine ⟨hupdate, fun hnames => ?_, ?_⟩
  · rw [hupdate, editAll_setPath fun _ he => hb.parse_join hnames he]
  · rw [hupdate]
    exact hready.exists_stopsAt (fun _ he => hb.hasSingle he) hb.nodup

/-- A group with a setting `y` that takes one value only, between two settings. -/
def picky : Schema :=
  ((Scope.start ⟨0, 0⟩).run
    [.setting "a" {}, .nested "g" {} [.setting "x" {},
      .setting "y" { construct := some (.oneOf [.bool true]) }, .setting "z" {}],
      .setting "w" {}]).state.schema

def mixed : Value :=
  .map (Value.entriesOf [("a", .unit), ("g", .map (Value.entriesOf
    [("x", .bool true), ("y", .bool false), ("z", .bool true)])), ("w", .unit)])

theorem proper_picky : picky.Proper :=
  Scope.proper_run _ ⟨trivial, ⟨trivial, trivial, trivial, trivial⟩, trivial, trivial⟩

theorem named_picky : picky.Named :=
  Scope.named_run _ Schema.all_empty
    ⟨trivial, ⟨trivial, trivial, trivial, trivial⟩, trivial, trivial⟩

theorem takes_mixed : picky.Takes mixed := by
  refine Schema.takes_entriesOf (by decide) ?_
  simp only [List.forall_mem_cons]
  refine ⟨⟨_, rfl, nofun⟩, ⟨_, rfl, fun inner hi => ?_⟩, ⟨_, rfl, nofun⟩, nofun⟩
  obtain rfl := Option.some.inj hi
  refine Schema.takes_entriesOf (by decide) ?_
  simp only [List.forall_mem_cons]
  exact ⟨⟨_, rfl, nofun⟩, ⟨_, rfl, nofun⟩, ⟨_, rfl, nofun⟩, nofun⟩

/-- The constructor of `g.y` refuses. What comes before is applied, what comes after is not. -/
theorem update_eq_setEach_assignments_mixed :
    let c := fresh picky
    (c.WellFormed ∧ c.Open ∧ c.schema.Takes mixed ∧ c.schema.Named) ∧
      c.update mixed = c.editAll [⟨[], .setPath "a" .unit⟩, ⟨[], .setPath "g.x" (.bool true)⟩,
        ⟨[], .setPath "g.y" (.bool false)⟩, ⟨[], .setPath "g.z" (.bool true)⟩,
        ⟨[], .setPath "w" .unit⟩] ∧
      (∃ applied rest, c.schema.assignments mixed = applied ++ rest ∧
        c.StopsAt applied rest (c.update mixed)) ∧
      (∃ reason, (c.update mixed).fault = some (.rejected "y" reason)) ∧
      (c.update mixed).state.getAt ⟨[], "a"⟩ = .ok .unit ∧
      (c.update mixed).state.getAt ⟨["g"], "x"⟩ = .ok (.bool true) ∧
      (c.update mixed).state.getAt ⟨["g"], "z"⟩ = .ok .nothing ∧
      (c.update mixed).state.getAt ⟨[], "w"⟩ = .ok .nothing := by
  have hc := wellFormed_fresh proper_picky
  have hnamed : (fresh picky).schema.Named := named_picky
  obtain ⟨_, hcalls, hstops⟩ := update_eq_setEach_assignments hc (open_fresh picky) takes_mixed
  exact ⟨⟨hc, open_fresh picky, takes_mixed, hnamed⟩, hcalls hnamed, hstops, ⟨_, rfl⟩, rfl, rfl,
    rfl, rfl⟩

end Effects

end SettingsTree.Config
