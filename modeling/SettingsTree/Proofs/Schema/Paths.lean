import SettingsTree.Path
import SettingsTree.Proofs.Schema.Depth

/-!
# What is declared at a path

A path leads through groups to a definition: a single setting, or again a group. At
most one definition stands at a path. Nothing stands below a single setting.
-/
namespace SettingsTree

namespace Definition

theorem find?_eq_none_iff {name : String} {ds : List Definition} :
    find? name ds = none ↔ name ∉ ds.map Definition.name := by
  induction ds with
  | nil => simp [find?]
  | cons d rest ih =>
      rw [find?]
      by_cases he : d.name = name
      · simp [he]
      · simp [he, ih, Ne.symm he]

end Definition

namespace Schema

/-- The schema of the group at the end of a walk. -/
def descend (s : Schema) : List String → Option Schema
  | [] => some s
  | name :: rest =>
      ((s.lookup name).bind Definition.group).bind fun inner => inner.descend rest

/-- What is declared at a path. -/
def at? (s : Schema) (path : Path) : Option Definition :=
  (s.descend path.parents).bind fun inner => inner.lookup path.leaf

def HasSingle (s : Schema) (path : Path) : Prop :=
  ∃ d, s.at? path = some d ∧ d.group = none

def HasGroup (s : Schema) (path : Path) : Prop :=
  ∃ d inner, s.at? path = some d ∧ d.group = some inner

/-- Nothing is declared at the path, and no single setting above it. -/
def Spares (s : Schema) (path : Path) : Prop :=
  s.at? path = none ∧ ∀ above : Path, above.segments <+: path.parents → ¬s.HasSingle above

variable {s : Schema} {name leaf : String} {rest : List String} {d : Definition}

theorem exists_lookup_iff : (∃ d, s.lookup name = some d) ↔ name ∈ s.names := by
  rw [← Option.ne_none_iff_exists', lookup, ne_eq, Definition.find?_eq_none_iff, not_not]
  rfl

@[simp] theorem at?_nil (s : Schema) (leaf : String) : s.at? ⟨[], leaf⟩ = s.lookup leaf := rfl

theorem at?_cons (s : Schema) (name : String) (rest : List String) (leaf : String) :
    s.at? ⟨name :: rest, leaf⟩ =
      ((s.lookup name).bind Definition.group).bind fun inner => inner.at? ⟨rest, leaf⟩ :=
  Option.bind_assoc ..

theorem at?_of_undeclared (hl : s.lookup name = none) : s.at? ⟨name :: rest, leaf⟩ = none := by
  rw [at?_cons, hl]
  rfl

theorem at?_of_single (hl : s.lookup name = some d) (hg : d.group = none) :
    s.at? ⟨name :: rest, leaf⟩ = none := by
  rw [at?_cons, hl, Option.bind_some, hg]
  rfl

theorem at?_of_group {inner : Schema} (hl : s.lookup name = some d) (hg : d.group = some inner) :
    s.at? ⟨name :: rest, leaf⟩ = inner.at? ⟨rest, leaf⟩ := by
  rw [at?_cons, hl, Option.bind_some, hg]
  rfl

theorem at?_cons_eq_some :
    s.at? ⟨name :: rest, leaf⟩ = some d ↔
      ∃ outer inner, s.lookup name = some outer ∧ outer.group = some inner ∧
        inner.at? ⟨rest, leaf⟩ = some d := by
  rw [at?_cons]
  cases s.lookup name with
  | none => simp
  | some outer => cases hg : outer.group <;> simp [hg]

theorem HasSingle.at?_eq_none {above path : Path} (h : s.HasSingle above)
    (hp : above.segments <+: path.parents) : s.at? path = none := by
  obtain ⟨parents, last⟩ := above
  obtain ⟨walk, leaf⟩ := path
  obtain ⟨d, hd, hg⟩ := h
  induction parents generalizing s walk with
  | nil =>
      obtain ⟨rest, rfl⟩ := hp
      exact at?_of_single hd hg
  | cons first others ih =>
      obtain ⟨rest, rfl⟩ := hp
      obtain ⟨outer, inner, hl, hin, hd⟩ := at?_cons_eq_some.1 hd
      exact (at?_of_group hl hin).trans (ih _ (List.prefix_append _ rest) hd)

theorem hasSingle_cons {path : Path} {inner : Schema} (hl : s.lookup name = some d)
    (hg : d.group = some inner) :
    s.HasSingle ⟨name :: path.parents, path.leaf⟩ ↔ inner.HasSingle path := by
  rw [HasSingle, at?_of_group hl hg]
  rfl

@[simp] theorem spares_nil : s.Spares ⟨[], leaf⟩ ↔ s.lookup leaf = none := by
  refine ⟨fun h => h.1, fun h => ⟨h, fun above hp => ?_⟩⟩
  have hnil := List.prefix_nil.1 hp
  simp [Path.segments] at hnil

/-- A path below a name is spared exactly if the name is not declared or is a group
that spares the rest of the path. -/
theorem spares_cons :
    s.Spares ⟨name :: rest, leaf⟩ ↔
      ∀ d, s.lookup name = some d → ∃ inner, d.group = some inner ∧ inner.Spares ⟨rest, leaf⟩ := by
  constructor
  · rintro ⟨hnone, habove⟩ d hl
    cases hg : d.group with
    | none => exact absurd ⟨d, hl, hg⟩ (habove ⟨[], name⟩ (by simp [Path.segments]))
    | some inner =>
        refine ⟨inner, rfl, (at?_of_group hl hg).symm.trans hnone, fun above hp hs => ?_⟩
        refine habove ⟨name :: above.parents, above.leaf⟩ ?_ ((hasSingle_cons hl hg).2 hs)
        exact (List.prefix_cons_inj name).2 hp
  · intro h
    cases hl : s.lookup name with
    | none =>
        refine ⟨at?_of_undeclared hl, fun above hp hs => ?_⟩
        obtain ⟨parents, last⟩ := above
        obtain ⟨e, he, _⟩ := hs
        cases parents with
        | nil =>
            obtain rfl : last = name := by simpa [Path.segments] using hp
            rw [at?_nil, hl] at he
            cases he
        | cons first others =>
            obtain rfl : first = name := (List.cons_prefix_cons.1 hp).1
            rw [at?_of_undeclared hl] at he
            cases he
    | some d =>
        obtain ⟨inner, hg, hnone, habove⟩ := h d hl
        refine ⟨(at?_of_group hl hg).trans hnone, fun above hp hs => ?_⟩
        obtain ⟨parents, last⟩ := above
        cases parents with
        | nil =>
            obtain rfl : last = name := by simpa [Path.segments] using hp
            obtain ⟨e, he, heg⟩ := hs
            obtain rfl := Option.some.inj (hl.symm.trans he)
            rw [hg] at heg
            cases heg
        | cons first others =>
            obtain ⟨rfl, hrest⟩ := List.cons_prefix_cons.1 hp
            exact habove ⟨others, last⟩ hrest ((hasSingle_cons hl hg).1 hs)

theorem All.at? {P : Definition → Prop} {path : Path}
    (h : s.All P) (hd : s.at? path = some d) : P d := by
  obtain ⟨parents, leaf⟩ := path
  induction parents generalizing s with
  | nil => exact h.each d (lookup_some hd).1
  | cons name rest ih =>
      obtain ⟨outer, inner, hl, hg, hd⟩ := at?_cons_eq_some.1 hd
      exact ih (h.inside (lookup_some hl).1 hg) hd

end Schema
end SettingsTree
