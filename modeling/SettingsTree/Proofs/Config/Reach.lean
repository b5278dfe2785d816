import SettingsTree.Proofs.Config.Leaves

/-!
# What a write at a path reaches

Two paths are apart if neither leads on to the other. A write at a path does not show at any path
that is apart from it, whether the write goes through, stops half way in a batch or leads nowhere.
At a single setting it either stores what the constructor made of the value, or changes nothing at
all. At a group it reaches no further than the single settings below, and only with a map.
-/
namespace SettingsTree

namespace Path

def first (path : Path) : String :=
  path.parents.headD path.leaf

/-- Neither path leads on to the other. -/
def Apart (path other : Path) : Prop :=
  ¬path.segments <+: other.segments ∧ ¬other.segments <+: path.segments

variable {name leaf last : String} {rest later : List String} {other : Path}

theorem first_mem_segments (path : Path) : [path.first] <+: path.segments := by
  obtain ⟨_ | ⟨name, rest⟩, leaf⟩ := path
  · exact List.prefix_rfl
  · exact ⟨rest ++ [leaf], rfl⟩

theorem Apart.first_ne (h : Apart ⟨[], leaf⟩ other) : other.first ≠ leaf := by
  rintro rfl
  exact h.1 other.first_mem_segments

/-- Paths that are apart and begin with the same segment go on from there. -/
theorem Apart.exists_of_first_eq (h : Apart ⟨name :: rest, leaf⟩ other)
    (hf : other.first = name) :
    ∃ later last, other = ⟨name :: later, last⟩ ∧ Apart ⟨rest, leaf⟩ ⟨later, last⟩ := by
  obtain ⟨parents, last⟩ := other
  cases parents with
  | nil =>
      obtain rfl : last = name := hf
      exact absurd (first_mem_segments ⟨last :: rest, leaf⟩) h.2
  | cons head later =>
      obtain rfl : head = name := hf
      exact ⟨later, last, rfl, fun hp => h.1 ((List.prefix_cons_inj head).2 hp),
        fun hp => h.2 ((List.prefix_cons_inj head).2 hp)⟩

end Path

namespace Config
variable {c c' inner : Config} {path other : Path} {walk : List String} {name : String}
  {d : Definition} {raw : Value} {edit : Config → Attempt Config}

theorem getAt_congr (hs : c.schema = c'.schema) (h : AgreeAt path.first c c') :
    c.getAt path = c'.getAt path := by
  obtain ⟨_ | ⟨name, rest⟩, leaf⟩ := path
  · show c.value leaf = c'.value leaf
    have hv : Table.find? leaf c.values = Table.find? leaf c'.values := h.value
    have hg : Table.find? leaf c.groups = Table.find? leaf c'.groups := h.group
    simp only [value, get, definition, hs, hv, hg]
  · have hg : Table.find? name c.groups = Table.find? name c'.groups := h.group
    simp only [getAt, descend, nested, definition, hs, hg]

theorem getAt_setAt_of_apart (h : path.Apart other) (c : Config) (raw : Value) :
    (c.setAt path raw).state.getAt other = c.getAt other := by
  obtain ⟨parents, leaf⟩ := path
  induction parents generalizing c other with
  | nil =>
      obtain ⟨hschema, _, hothers⟩ := c.set_frame leaf raw
      exact getAt_congr hschema (hothers other.first h.first_ne)
  | cons name rest ih =>
      rw [setAt, within]
      cases hn : c.nested name with
      | error fault => rfl
      | ok inner =>
          obtain ⟨⟨d, hl⟩, hf⟩ := nested_eq_ok.1 hn
          by_cases hfirst : other.first = name
          · obtain ⟨later, last, rfl, hbelow⟩ := h.exists_of_first_eq hfirst
            rw [Attempt.state_into, getAt_withGroup_self hl, getAt_of_group hl hf]
            exact ih inner hbelow
          · exact getAt_congr rfl ⟨rfl, Table.find?_insert_of_ne hfirst _ c.groups⟩

theorem descend_within (hd : c.descend walk = .ok inner) :
    (c.within walk edit).state.descend walk = .ok (edit inner).state := by
  induction walk generalizing c with
  | nil =>
      obtain rfl := Except.ok.inj hd
      rfl
  | cons name rest ih =>
      rw [descend] at hd
      cases hn : c.nested name with
      | error fault =>
          rw [hn] at hd
          cases hd
      | ok group =>
          rw [hn] at hd
          have hafter : (c.within (name :: rest) edit).state.nested name =
              .ok (group.within rest edit).state := by
            rw [within, hn]
            exact nested_eq_ok.2 ⟨(nested_eq_ok.1 hn).1, Table.find?_insert_self ..⟩
          rw [descend, hafter]
          exact ih hd

/-- The parents of a path to a definition lead to a group that declares it. -/
theorem WellFormed.exists_descend (hc : c.WellFormed) (hd : c.schema.at? path = some d) :
    ∃ inner, c.descend path.parents = .ok inner ∧ inner.WellFormed ∧
      inner.schema.lookup path.leaf = some d := by
  obtain ⟨parents, leaf⟩ := path
  induction parents generalizing c with
  | nil => exact ⟨c, rfl, hc, hd⟩
  | cons name rest ih =>
      obtain ⟨outer, s, hl, hg, hbelow⟩ := Schema.at?_cons_eq_some.1 hd
      obtain ⟨group, hf, rfl⟩ := hc.shaped.group_of_lookup hl hg
      obtain ⟨inner, hi, hinner⟩ := ih (hc.inside hf) hbelow
      refine ⟨inner, ?_, hinner⟩
      rw [descend, nested_eq_ok.2 ⟨⟨outer, hl⟩, hf⟩]
      exact hi

/-- A write to a single setting stores what the constructor made of the value, or is refused
without a trace. -/
theorem set_single (hl : c.schema.lookup name = some d) (hg : d.group = none) (raw : Value) :
    (∃ v, d.resolve (some raw) = .ok v ∧ c.set name raw = .done (c.withValue name v)) ∨
      ∃ fault, c.set name raw = .failed c fault := by
  by_cases hz : c.frozen = true
  · exact .inr ⟨_, set_of_frozen hz name raw⟩
  · rw [set_of_setting (target_of_single (Bool.eq_false_iff.2 hz) hl hg), assign,
      (Schema.lookup_some hl).2]
    cases d.resolve (some raw) with
    | error fault => exact .inr ⟨fault, rfl⟩
    | ok v => exact .inl ⟨v, rfl, rfl⟩

theorem WellFormed.setAt_single (hc : c.WellFormed) (hd : c.schema.at? path = some d)
    (hg : d.group = none) (raw : Value) :
    (∃ v, d.resolve (some raw) = .ok v ∧ (c.setAt path raw).fault = none ∧
      (c.setAt path raw).state.getAt path = .ok v) ∨
      ∃ fault, c.setAt path raw = .failed c fault := by
  obtain ⟨inner, hi, hinner, hl⟩ := hc.exists_descend hd
  rcases set_single hl hg raw with ⟨v, hv, hset⟩ | ⟨fault, hset⟩
  · refine .inl ⟨v, hv, ?_, ?_⟩
    · rw [setAt, fault_within hi, hset, Attempt.fault_done]
    · have hafter := hinner.shaped.changes (changes_set inner path.leaf raw)
      rw [hset, Attempt.state_done] at hafter
      rw [getAt, setAt, descend_within hi]
      simp only [hset, Attempt.state_done]
      rw [hafter.value_of_single hl hg, withValue, Table.find?_insert_self]
  · exact .inr ⟨fault, within_failed hc.ordered hi hset⟩

theorem WellFormed.setAt_group_of_not_map (hc : c.WellFormed) (hp : c.schema.HasGroup path)
    (hm : ∀ entries, raw ≠ .map entries) : ∃ fault, c.setAt path raw = .failed c fault := by
  obtain ⟨d, s, hd, hg⟩ := hp
  obtain ⟨inner, hi, hinner, hl⟩ := hc.exists_descend hd
  by_cases hz : inner.frozen = true
  · exact ⟨_, within_failed hc.ordered hi (set_of_frozen hz path.leaf raw)⟩
  · obtain ⟨group, hf, rfl⟩ := hinner.shaped.group_of_lookup hl hg
    have ht := target_of_group (Bool.eq_false_iff.2 hz) hl hg hf
    exact ⟨_, within_failed hc.ordered hi (set_of_group_of_not_map ht hm)⟩

end Config

theorem Schema.HasGroup.apart {s : Schema} {path other : Path} (hp : s.HasGroup path)
    (ho : s.HasSingle other) (hbelow : ¬path.segments <+: other.segments) : path.Apart other := by
  refine ⟨hbelow, fun hprefix => ?_⟩
  obtain ⟨d, inner, hd, hg⟩ := hp
  rcases List.prefix_concat_iff.1 hprefix with hsame | habove
  · exact hbelow (hsame ▸ List.prefix_rfl)
  · rw [ho.at?_eq_none habove] at hd
    cases hd

namespace Config
variable {c : Config}

/-- How far a write at a path reaches, whatever it answers. It does not show at any path apart
from its own. At a single setting it is read as what the constructor made of the value, or it
changes nothing. At a group only the assigned values of single settings below can change, and
none at all if the value is not a map. -/
theorem setAt_confined (hc : c.WellFormed) (path : Path) (raw : Value) :
    (∀ other, path.Apart other → (c.setAt path raw).state.getAt other = c.getAt other) ∧
      (∀ d, c.schema.at? path = some d → d.group = none →
        ((c.setAt path raw).fault = none → ∃ v, d.resolve (some raw) = .ok v ∧
          (c.setAt path raw).state.getAt path = .ok v) ∧
        ((c.setAt path raw).fault ≠ none → (c.setAt path raw).state = c)) ∧
      (c.schema.HasGroup path → c.Framed (c.setAt path raw).state ∧
        (∀ other, c.schema.HasSingle other → ¬path.segments <+: other.segments →
          (c.setAt path raw).state.getAt other = c.getAt other) ∧
        ((∀ entries, raw ≠ .map entries) → (c.setAt path raw).state = c)) := by
  refine ⟨fun other h => getAt_setAt_of_apart h c raw, fun d hd hg => ?_, fun hp =>
    ⟨framed_setAt c path raw, fun other ho hbelow =>
      getAt_setAt_of_apart (hp.apart ho hbelow) c raw, fun hm => ?_⟩⟩
  · rcases hc.setAt_single hd hg raw with ⟨v, hv, hthrough, hread⟩ | ⟨fault, hrefused⟩
    · exact ⟨fun _ => ⟨v, hv, hread⟩, fun hne => absurd hthrough hne⟩
    · rw [hrefused]
      exact ⟨fun hnone => (nomatch hnone), fun _ => rfl⟩
  · obtain ⟨fault, hrefused⟩ := hc.setAt_group_of_not_map hp hm
    rw [hrefused, Attempt.state_failed]

/-- A batch for the group `g` stops half way: `g.x` is written, `g.y` refuses its value, and the
settings beside the group stay as they were. A single value that `g.y` refuses leaves no trace. -/
theorem setAt_confined_halfway :
    let c := fresh picky
    let batch : Value := .map (Value.entriesOf
      [("x", .bool true), ("y", .bool false), ("z", .bool true)])
    c.WellFormed ∧ c.schema.HasGroup ⟨[], "g"⟩ ∧
      (∃ reason, (c.setAt ⟨[], "g"⟩ batch).fault = some (.rejected "y" reason)) ∧
      (c.setAt ⟨[], "g"⟩ batch).state.getAt ⟨["g"], "x"⟩ = .ok (.bool true) ∧
      c.getAt ⟨["g"], "x"⟩ = .ok .nothing ∧
      (c.setAt ⟨[], "g"⟩ batch).state.getAt ⟨[], "w"⟩ = c.getAt ⟨[], "w"⟩ ∧
      (c.setAt ⟨[], "g"⟩ .unit).state = c ∧
      (c.setAt ⟨["g"], "y"⟩ (.bool false)).state = c ∧
      (c.setAt ⟨["g"], "x"⟩ (.bool true)).state.getAt ⟨["g"], "x"⟩ = .ok (.bool true) := by
  intro c batch
  have hc : c.WellFormed := wellFormed_fresh proper_picky
  have hp : c.schema.HasGroup ⟨[], "g"⟩ := ⟨_, _, rfl, rfl⟩
  obtain ⟨hapart, _, _⟩ := setAt_confined hc ⟨[], "g"⟩ batch
  obtain ⟨_, _, hgroup⟩ := setAt_confined hc ⟨[], "g"⟩ .unit
  obtain ⟨_, _, hnone⟩ := hgroup hp
  obtain ⟨_, hrefused, _⟩ := setAt_confined hc ⟨["g"], "y"⟩ (.bool false)
  obtain ⟨_, hthrough, _⟩ := setAt_confined hc ⟨["g"], "x"⟩ (.bool true)
  obtain ⟨v, hv, hread⟩ := (hthrough _ rfl rfl).1 rfl
  obtain rfl := Except.ok.inj hv
  exact ⟨hc, hp, ⟨_, rfl⟩, rfl, rfl, hapart ⟨[], "w"⟩ ⟨by decide, by decide⟩, hnone nofun,
    (hrefused _ rfl rfl).2 nofun, hread⟩

end Config
end SettingsTree
