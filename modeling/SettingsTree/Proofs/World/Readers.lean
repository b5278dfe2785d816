import SettingsTree.Proofs.Config.Values
import SettingsTree.Proofs.Schema.Statements
import SettingsTree.Proofs.World.Lines
import SettingsTree.Proofs.World.Provenance

/-!
# The readers of owners

Every declaration that goes through adds the names that the new schema marks as readers to
the table of its owner, and children start with the table of their parent. No name is ever
taken out again. So the table lists the names that any schema on the line of the owner has
marked, those of its ancestors before the derivation included. It matches the current schema
exactly if no mark was lost to a later declaration of the same name.
-/
namespace SettingsTree

/-- The current definition of the name is marked as a reader. -/
def Schema.Marks (s : Schema) (name : String) : Prop :=
  ∃ d, s.lookup name = some d ∧ d.reader = true

section tables
variable {name other : String} {readers : List String}

/-- Names in ascending order are the names of a table without entries to speak of. -/
theorem addReader_eq (name : String) (readers : List String) :
    addReader name readers = Table.names (Table.insert name () (readers.map fun n => (n, ()))) := by
  induction readers with
  | nil => rfl
  | cons head rest ih =>
      rw [addReader, List.map_cons, Table.insert]
      by_cases hsame : name = head
      · simp [hsame, Table.names, Function.comp_def]
      · by_cases hbefore : name < head
        · simp [hsame, Ne.symm hsame, hbefore, Table.names, Function.comp_def]
        · simp only [if_neg hsame, if_neg (Ne.symm hsame), if_neg hbefore, ih]
          rfl

theorem names_map_unit (readers : List String) :
    Table.names (readers.map fun n => (n, ())) = readers := by
  simp [Table.names, Function.comp_def]

theorem mem_addReader : other ∈ addReader name readers ↔ other = name ∨ other ∈ readers := by
  rw [addReader_eq, Table.mem_names_insert, names_map_unit]

theorem ascending_addReader (h : readers.Pairwise (· < ·)) (name : String) :
    (addReader name readers).Pairwise (· < ·) := by
  have hsorted : Table.Sorted (readers.map fun n => (n, ())) := by
    rwa [Table.Sorted, names_map_unit]
  rw [addReader_eq]
  exact hsorted.insert name ()

theorem Owner.mem_collectReaders {s : Schema} (hs : s.names.Nodup) :
    name ∈ Owner.collectReaders readers s ↔ name ∈ readers ∨ s.Marks name := by
  have key : ∀ (ds : List Definition) (readers : List String),
      name ∈ ds.foldl (fun acc d => addReader d.name acc) readers ↔
        name ∈ readers ∨ ∃ d ∈ ds, d.name = name := by
    intro ds
    induction ds with
    | nil => simp
    | cons d rest ih =>
        intro readers
        rw [List.foldl_cons, ih, mem_addReader, List.exists_mem_cons_iff, eq_comm, or_assoc,
          or_left_comm]
  rw [collectReaders, key, Schema.Marks]
  refine or_congr_right ⟨?_, ?_⟩
  · rintro ⟨d, hd, rfl⟩
    obtain ⟨hmem, hreader⟩ := List.mem_filter.1 hd
    exact ⟨d, Definition.find?_of_mem hs hmem, hreader⟩
  · rintro ⟨d, hl, hreader⟩
    obtain ⟨hmem, hname⟩ := Schema.lookup_some hl
    exact ⟨d, List.mem_filter.2 ⟨hmem, hreader⟩, hname⟩

theorem Owner.ascending_collectReaders (h : readers.Pairwise (· < ·)) (s : Schema) :
    (Owner.collectReaders readers s).Pairwise (· < ·) := by
  unfold collectReaders
  induction s.definitions.filter Definition.reader generalizing readers with
  | nil => exact h
  | cons d rest ih => exact ih (ascending_addReader h d.name)

theorem readThrough_eq_undefinedReader {c : Config} :
    readThrough readers c name = .error (.undefinedReader name) ↔ name ∉ readers := by
  unfold readThrough
  split_ifs with h
  · refine iff_of_false (fun hfault => ?_) (not_not_intro h)
    rcases Config.fault_of_value hfault with hundeclared | ⟨setting, reason, hrejected⟩
    · cases hundeclared
    · cases hrejected
  · exact iff_of_true rfl h

end tables

namespace Owner

/-- A call leaves schema and readers alone unless it is a declaration that goes through. -/
theorem act_keeps_or_declares (o : Owner) (a : Act) :
    ((o.act a).state.schema = o.schema ∧ (o.act a).state.readers = o.readers) ∨
      ∃ d scope, Scope.declare ⟨o.schema, o.supply⟩ d = .done scope ∧
        (o.act a).state.schema = scope.schema ∧
        (o.act a).state.readers = collectReaders o.readers scope.schema := by
  by_cases ha : ∃ d, a = .declare d
  · obtain ⟨d, rfl⟩ := ha
    cases hf : (o.declare d).fault with
    | some fault =>
        left
        rw [act, declare_failed hf]
        exact ⟨rfl, rfl⟩
    | none =>
        right
        obtain ⟨_, scope, hscope, hstate⟩ := declare_done hf
        rw [act, hstate]
        exact ⟨d, scope, hscope, rfl, rfl⟩
  · left
    rw [state_act o fun d hd => ha ⟨d, hd⟩]
    exact ⟨rfl, rfl⟩

/-- The readers are the names that the current schema marks, and reading by name alone is refused
as undefined exactly for the others. -/
structure Matched (o : Owner) : Prop where
  listed : ∀ name, name ∈ o.readers ↔ o.schema.Marks name
  refused : ∀ name, (o.read name).1 = .error (.undefinedReader name) ↔ ¬o.schema.Marks name

namespace Line

/-- Some schema on the line marked the name as a reader, be it one of the owner or one that an
ancestor had before the derivation. -/
def Marked (name : String) : Owner.Line → Prop
  | founded _ _ => False
  | derived parent _ _ => parent.Marked name
  | called before call => before.Marked name ∨ (before.called call).last.schema.Marks name

/-- What holds of the owner at the end of a line. -/
structure Tabled (l : Owner.Line) : Prop where
  distinct : l.last.schema.names.Nodup
  ascending : l.last.readers.Pairwise (· < ·)
  listed : ∀ name, name ∈ l.last.readers ↔ l.Marked name
  current : ∀ name, l.last.schema.Marks name → l.Marked name

theorem Tabled.called {before : Owner.Line} (h : before.Tabled) (call : Call) :
    (before.called call).Tabled := by
  rcases before.last.act_keeps_or_declares call.toAct with ⟨hschema, hreaders⟩ |
    ⟨d, scope, hscope, hschema, hreaders⟩
  · have hsame : (before.called call).last.schema = before.last.schema := hschema
    refine ⟨hsame ▸ h.distinct, ?_, fun name => ?_, fun name hm => .inr hm⟩
    · rw [last, hreaders]
      exact h.ascending
    · rw [last, hreaders, h.listed, Marked, hsame]
      exact ⟨.inl, fun hm => hm.elim id (h.current name)⟩
  · have hnew : (before.called call).last.schema = scope.schema := hschema
    have hdistinct : scope.schema.names.Nodup := by
      have hends := Scope.ends_declare ⟨before.last.schema, before.last.supply⟩ d
      rw [hscope] at hends
      exact hends.nodup h.distinct
    refine ⟨hnew ▸ hdistinct, ?_, fun name => ?_, fun name hm => .inr hm⟩
    · rw [last, hreaders]
      exact ascending_collectReaders h.ascending scope.schema
    · rw [last, hreaders, mem_collectReaders hdistinct, h.listed, Marked, hnew]

theorem tabled (l : Owner.Line) : l.Tabled := by
  induction l with
  | founded author name =>
      exact ⟨List.nodup_nil, .nil, fun name => iff_of_false (by simp [last, Owner.new]) id,
        fun name ⟨_, hl, _⟩ => nomatch hl⟩
  | derived parent author name ih => exact ⟨ih.distinct, ih.ascending, ih.listed, ih.current⟩
  | called before call ih => exact ih.called call

theorem read_eq_undefinedReader (l : Owner.Line) (name : String) :
    (l.last.read name).1 = .error (.undefinedReader name) ↔ ¬l.Marked name := by
  rw [Owner.read, readThrough_eq_undefinedReader, l.tabled.listed]

/-- The table matches the current schema as long as no mark on the line was lost. -/
theorem matched_iff (l : Owner.Line) :
    l.last.Matched ↔ ∀ name, l.Marked name → l.last.schema.Marks name := by
  have h := l.tabled
  refine ⟨fun hm name he => (hm.listed name).1 ((h.listed name).2 he), fun hkept => ?_⟩
  have hsame : ∀ name, l.Marked name ↔ l.last.schema.Marks name := fun name =>
    ⟨hkept name, h.current name⟩
  exact ⟨fun name => (h.listed name).trans (hsame name),
    fun name => (l.read_eq_undefinedReader name).trans (not_congr (hsame name))⟩

end Line
end Owner

namespace World

/-- The readers of an owner are, in ascending order, the names that some schema on its line
marked, and reading by name alone is refused as undefined exactly for all other names. So the
table matches the current schema if and only if each name that was ever marked still is. -/
theorem readers_eq_ever_marked {ops : List Op} {k : Nat} {o : Owner}
    (hk : (empty.after ops).held k = some (.owner o)) :
    ∃ l, line? ops k = some (.owner l) ∧ o.readers.Pairwise (· < ·) ∧
      (∀ name, name ∈ o.readers ↔ l.Marked name) ∧
      (∀ name, (o.read name).1 = .error (.undefinedReader name) ↔ ¬l.Marked name) ∧
      (∀ name, o.schema.Marks name → name ∈ o.readers) ∧
      (o.Matched ↔ ∀ name, l.Marked name → o.schema.Marks name) := by
  obtain ⟨l, hl, rfl⟩ := (Chronicle.tells_empty.after ops).1.owner hk
  have h := l.tabled
  exact ⟨l, hl, h.ascending, h.listed, l.read_eq_undefinedReader,
    fun name hm => (h.listed name).2 (h.current name hm), l.matched_iff⟩

/-- A child declares a reader of its parent again, this time as a plain setting, and then a
group that is a reader. -/
def redeclared : List Op :=
  [.found "base",
    .act 0 (.declare (.setting "a" { fallback := some (.char '1'), reader := true })),
    .derive 0 "child", .act 2 (.declare (.setting "a" { fallback := some (.char '2') })),
    .act 2 (.declare (.nested "g" { reader := true } [.setting "x" {}]))]

/-- The child goes on to offer `a`, which its line has marked, and does not offer `x`. -/
theorem readers_eq_ever_marked_redeclared :
    ∃ o, (empty.after redeclared).held 2 = some (.owner o) ∧
      ∃ l, line? redeclared 2 = some (.owner l) ∧ l.Marked "a" ∧ l.Marked "g" ∧
        ¬l.Marked "x" ∧ o.readers = ["a", "g"] ∧
        (o.read "x").1 = .error (.undefinedReader "x") ∧ ¬o.schema.Marks "a" := by
  obtain ⟨o, ho, hreaders, hl⟩ : ∃ o, (empty.after redeclared).held 2 = some (.owner o) ∧
      o.readers = ["a", "g"] ∧ ¬o.schema.Marks "a" := by
    refine ⟨_, rfl, rfl, ?_⟩
    rintro ⟨d, hd, hreader⟩
    obtain rfl := Option.some.inj hd
    cases hreader
  obtain ⟨l, hline, _, hlisted, hread, _, _⟩ := readers_eq_ever_marked ho
  have hx : ¬l.Marked "x" := by
    rw [← hlisted, hreaders]
    decide
  refine ⟨o, ho, l, hline, ?_, ?_, hx, hreaders, (hread "x").2 hx, hl⟩
  · rw [← hlisted, hreaders]
    decide
  · rw [← hlisted, hreaders]
    decide

/-- The table need not match the current schema: the child offers and reads `a`, although its
current declaration of `a` is no reader. -/
theorem redeclared_reader_stays :
    ¬∀ (ops : List Op) (k : Nat) (o : Owner), (empty.after ops).held k = some (.owner o) →
      o.Matched := by
  intro h
  obtain ⟨d, hd, hreader⟩ := ((h redeclared 2 _ rfl).listed "a").1 (by decide)
  obtain rfl := Option.some.inj hd
  cases hreader

end World
end SettingsTree
