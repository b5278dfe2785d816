import SettingsTree.Proofs.Schema.Merging

/-!
# Merging several schemas

Schemas are compatible if no path is a group in one of them and a single setting in the other.
Then nothing is lost in a merge: at every path it has what one of the two schemas has there, and
at the end of every walk the names of both. So it does not matter in which order three schemas
are merged, as long as they keep their places: the two results have the same names in the same
order, and at each path the same single setting, or groups of the same content. The groups are
new definitions in each of the two results, so their stamps differ.

Without compatibility the order matters: a single setting in the middle makes the last schema
start anew, or gives way before the first one is there.
-/
namespace SettingsTree

namespace Definition

/-- The definitions say the same of their setting. A single setting is like no other one. -/
structure Like (d e : Definition) : Prop where
  name : d.name = e.name
  fallback : d.fallback = e.fallback
  construct : d.construct = e.construct
  reader : d.reader = e.reader
  kind : d.group.isSome = e.group.isSome
  single : d.group = none → d = e

theorem Like.refl (d : Definition) : d.Like d :=
  ⟨rfl, rfl, rfl, rfl, rfl, fun _ => rfl⟩

theorem Like.symm {d e : Definition} (h : d.Like e) : e.Like d := by
  refine ⟨h.name.symm, h.fallback.symm, h.construct.symm, h.reader.symm, h.kind.symm, fun hg => ?_⟩
  have hsingle : d.group = none := by simpa [hg] using h.kind
  exact (h.single hsingle).symm

theorem Like.trans {d e f : Definition} (h : d.Like e) (h' : e.Like f) : d.Like f := by
  refine ⟨h.name.trans h'.name, h.fallback.trans h'.fallback, h.construct.trans h'.construct,
    h.reader.trans h'.reader, h.kind.trans h'.kind, fun hg => ?_⟩
  have hsame := h.single hg
  exact hsame.trans (h'.single (hsame ▸ hg))

theorem like_joined (ours : Option Definition) (d : Definition) : d.Like (d.joined ours) := by
  refine ⟨(name_joined ours d).symm, ?_, ?_, ?_, (isSome_group_joined ours d).symm,
    fun hg => (joined_of_single hg ours).symm⟩
  all_goals
    unfold joined
    split <;> rfl

end Definition

/-- The names of the first list, and after them those that only the second one has. -/
def appendNew (names others : List String) : List String :=
  names ++ others.filter (· ∉ names)

theorem appendNew_assoc (first second third : List String) :
    appendNew (appendNew first second) third = appendNew first (appendNew second third) := by
  have hnew : third.filter (· ∉ first ++ second.filter (· ∉ first)) =
      (third.filter (· ∉ second)).filter (· ∉ first) := by
    rw [List.filter_filter]
    refine List.filter_congr fun name _ => ?_
    by_cases hf : name ∈ first <;> simp [hf]
  rw [appendNew, appendNew, appendNew, appendNew, hnew, List.filter_append, List.append_assoc]

instance : Std.Associative appendNew := ⟨appendNew_assoc⟩

namespace Schema

/-- No path is a group in one of the schemas and a single setting in the other. -/
def Compatible (s t : Schema) : Prop :=
  ∀ path, ¬(s.HasGroup path ∧ t.HasSingle path) ∧ ¬(s.HasSingle path ∧ t.HasGroup path)

/-- The names in the group at the end of a walk, if there is one. -/
def namesAt (s : Schema) (walk : List String) : Option (List String) :=
  (s.descend walk).map names

variable {s ours theirs a b c : Schema} {path above : Path} {d : Definition}

theorem hasGroup_of_below (hd : s.at? path = some d) (hp : above.segments <+: path.parents) :
    s.HasGroup above := by
  obtain ⟨parents, last⟩ := above
  obtain ⟨walk, leaf⟩ := path
  induction parents generalizing s walk with
  | nil =>
      obtain ⟨rest, rfl⟩ := hp
      obtain ⟨outer, inner, hl, hg, _⟩ := at?_cons_eq_some.1 hd
      exact ⟨outer, inner, hl, hg⟩
  | cons first others ih =>
      obtain ⟨rest, rfl⟩ := hp
      obtain ⟨outer, inner, hl, hg, hin⟩ := at?_cons_eq_some.1 hd
      obtain ⟨e, deep, he, heg⟩ := ih _ hin (List.prefix_append _ rest)
      exact ⟨e, deep, (at?_of_group hl hg).trans he, heg⟩

theorem hasSingle_or_hasGroup (hd : s.at? path = some d) :
    (d.group = none ∧ s.HasSingle path) ∨ ∃ inner, d.group = some inner ∧ s.HasGroup path := by
  cases hg : d.group with
  | none => exact .inl ⟨rfl, d, hd, hg⟩
  | some inner => exact .inr ⟨inner, rfl, d, inner, hd, hg⟩

theorem descend_segments (s : Schema) (path : Path) :
    s.descend path.segments = (s.at? path).bind Definition.group := by
  obtain ⟨parents, leaf⟩ := path
  induction parents generalizing s with
  | nil =>
      show ((s.lookup leaf).bind Definition.group).bind some = _
      rw [at?_nil, Option.bind_fun_some]
  | cons name rest ih =>
      rw [at?_cons, Option.bind_assoc]
      exact congrArg _ (funext fun inner => ih inner)

namespace Compatible

theorem symm (h : ours.Compatible theirs) : theirs.Compatible ours := fun path =>
  ⟨fun hp => (h path).2 hp.symm, fun hp => (h path).1 hp.symm⟩

/-- A compatible schema spares what it does not declare itself. -/
theorem spares (h : ours.Compatible theirs) (hd : ours.at? path = some d)
    (hn : theirs.at? path = none) : theirs.Spares path :=
  ⟨hn, fun above hp hs => (h above).1 ⟨hasGroup_of_below hd hp, hs⟩⟩

theorem at?_merge (h : ours.Compatible theirs) (ht : theirs.Proper) (path : Path) :
    (ours.merge theirs).at? path =
      match theirs.at? path with
      | some d => some (d.joined (ours.at? path))
      | none => ours.at? path := by
  cases hd : theirs.at? path with
  | some d => exact at?_merge_of_declared ht hd
  | none =>
      by_cases hs : theirs.Spares path
      · exact at?_merge_of_spared ht hs
      · obtain ⟨above, hp, hsingle⟩ := exists_single_above hd hs
        rw [at?_merge_of_covered ht hp hsingle]
        cases ho : ours.at? path with
        | none => rfl
        | some e => exact absurd (h.spares ho hd) hs

theorem descend_merge (h : ours.Compatible theirs) (ht : theirs.Proper) (walk : List String) :
    (ours.merge theirs).descend walk =
      (ours.descend walk).merge merge (theirs.descend walk) := by
  rcases List.eq_nil_or_concat walk with rfl | ⟨parents, leaf, rfl⟩
  · rfl
  · have hend : parents.concat leaf = Path.segments ⟨parents, leaf⟩ := List.concat_eq_append
    rw [hend, descend_segments, descend_segments, descend_segments, h.at?_merge ht]
    cases hd : theirs.at? ⟨parents, leaf⟩ with
    | none => cases (ours.at? ⟨parents, leaf⟩).bind Definition.group <;> rfl
    | some d =>
        simp only [Option.bind_some]
        cases ho : ours.at? ⟨parents, leaf⟩ with
        | none =>
            rw [Definition.joined_of_no_group rfl]
            cases d.group <;> rfl
        | some e =>
            rcases hasSingle_or_hasGroup hd with ⟨hg, hs⟩ | ⟨inner, hg, hgroup⟩
            · have hsingle : e.group = none := by
                rcases hasSingle_or_hasGroup ho with ⟨hg', _⟩ | ⟨_, _, hgroup'⟩
                · exact hg'
                · exact absurd ⟨hgroup', hs⟩ (h _).1
              rw [Definition.joined_of_single hg, hg, Option.bind_some, hsingle]
              rfl
            · rcases hasSingle_or_hasGroup ho with ⟨_, hs'⟩ | ⟨mine, hm, _⟩
              · exact absurd ⟨hs', hgroup⟩ (h _).2
              · have hours : (some e).bind Definition.group = some mine := hm
                rw [Definition.group_joined hours hg, hours, hg]
                rfl

theorem namesAt_merge (h : ours.Compatible theirs) (ht : theirs.Proper) (walk : List String) :
    (ours.merge theirs).namesAt walk =
      (ours.namesAt walk).merge appendNew (theirs.namesAt walk) := by
  rw [namesAt, namesAt, namesAt, h.descend_merge ht]
  cases ho : ours.descend walk with
  | none => cases theirs.descend walk <;> rfl
  | some mine =>
      cases hi : theirs.descend walk with
      | none => rfl
      | some inner =>
          exact congrArg some (names_merge mine (Schema.descend_merge ht ho hi).2)

/-- A merge of schemas that are compatible with another one is compatible with it. -/
theorem merge (hb : b.Proper) (hac : a.Compatible c) (hbc : b.Compatible c) :
    (a.merge b).Compatible c := by
  intro path
  constructor
  · rintro ⟨hgroup, hs⟩
    rcases (hasGroup_merge hb).1 hgroup with hg | ⟨hg, _⟩
    · exact (hbc path).1 ⟨hg, hs⟩
    · exact (hac path).1 ⟨hg, hs⟩
  · rintro ⟨⟨d, hd, hnone⟩, hgroup⟩
    rcases (at?_merge_of_single hb hnone).1 hd with hs | ⟨hs, _⟩
    · exact (hbc path).2 ⟨⟨d, hs, hnone⟩, hgroup⟩
    · exact (hac path).2 ⟨⟨d, hs, hnone⟩, hgroup⟩

/-- Schemas are compatible if names of both are single settings in both, or groups in both that
are compatible in turn. -/
theorem of_definitions
    (h : ∀ d ∈ ours.definitions, ∀ e ∈ theirs.definitions, d.name = e.name →
      (d.group = none ∧ e.group = none) ∨ ∃ mine inner, d.group = some mine ∧
        e.group = some inner ∧ mine.Compatible inner) :
    ours.Compatible theirs := by
  have hlookup : ∀ {name d e}, ours.lookup name = some d → theirs.lookup name = some e →
      (d.group = none ∧ e.group = none) ∨ ∃ mine inner, d.group = some mine ∧
        e.group = some inner ∧ mine.Compatible inner := by
    intro name d e hd he
    obtain ⟨hdm, hdn⟩ := lookup_some hd
    obtain ⟨hem, hen⟩ := lookup_some he
    exact h d hdm e hem (hdn.trans hen.symm)
  rintro ⟨_ | ⟨name, rest⟩, leaf⟩
  · constructor
    · rintro ⟨⟨d, inner, hd, hg⟩, e, he, hs⟩
      rcases hlookup hd he with ⟨hn, _⟩ | ⟨_, _, _, hn, _⟩
      · exact nomatch hg.symm.trans hn
      · exact nomatch hs.symm.trans hn
    · rintro ⟨⟨d, hd, hs⟩, e, inner, he, hg⟩
      rcases hlookup hd he with ⟨_, hn⟩ | ⟨_, _, hn, _⟩
      · exact nomatch hg.symm.trans hn
      · exact nomatch hs.symm.trans hn
  · -- Both paths lead through the group of the first name.
    have hinside : ∀ {d e}, ours.at? ⟨name :: rest, leaf⟩ = some d →
        theirs.at? ⟨name :: rest, leaf⟩ = some e → ∃ mine inner : Schema, mine.Compatible inner ∧
          mine.at? ⟨rest, leaf⟩ = some d ∧ inner.at? ⟨rest, leaf⟩ = some e := by
      intro d e hd he
      obtain ⟨d', mine, hdl, hdg, hd⟩ := at?_cons_eq_some.1 hd
      obtain ⟨e', inner, hel, heg, he⟩ := at?_cons_eq_some.1 he
      rcases hlookup hdl hel with ⟨hn, _⟩ | ⟨mine', inner', hm, hi, hcompatible⟩
      · exact nomatch hdg.symm.trans hn
      · obtain rfl := Option.some.inj (hdg.symm.trans hm)
        obtain rfl := Option.some.inj (heg.symm.trans hi)
        exact ⟨mine, inner, hcompatible, hd, he⟩
    constructor
    · rintro ⟨⟨d, deep, hd, hg⟩, e, he, hs⟩
      obtain ⟨mine, inner, hcompatible, hd, he⟩ := hinside hd he
      exact (hcompatible ⟨rest, leaf⟩).1 ⟨⟨d, deep, hd, hg⟩, e, he, hs⟩
    · rintro ⟨⟨d, hd, hs⟩, e, deep, he, hg⟩
      obtain ⟨mine, inner, hcompatible, hd, he⟩ := hinside hd he
      exact (hcompatible ⟨rest, leaf⟩).2 ⟨⟨d, hd, hs⟩, e, deep, he, hg⟩

end Compatible

/-- Three compatible schemas may be merged in either order: the results have the same names in
the same order in every group, and like definitions at every path. -/
theorem merge_assoc_of_compatible (hb : b.Proper) (hc : c.Proper) (hab : a.Compatible b)
    (hac : a.Compatible c) (hbc : b.Compatible c) :
    (∀ walk, ((a.merge b).merge c).namesAt walk = (a.merge (b.merge c)).namesAt walk) ∧
      ∀ path, Option.Rel Definition.Like (((a.merge b).merge c).at? path)
        ((a.merge (b.merge c)).at? path) := by
  have hbcProper : (b.merge c).Proper := All.merge (fun _ _ _ _ => trivial) hb hc
  have hleft : (a.merge b).Compatible c := .merge hb hac hbc
  have hright : a.Compatible (b.merge c) := (Compatible.merge hc hab.symm hac.symm).symm
  constructor
  · intro walk
    rw [hleft.namesAt_merge hc, hab.namesAt_merge hb, hright.namesAt_merge hbcProper,
      hbc.namesAt_merge hc]
    exact (inferInstance : Std.Associative (Option.merge appendNew)).assoc _ _ _
  · intro path
    rw [hleft.at?_merge hc, hab.at?_merge hb, hright.at?_merge hbcProper, hbc.at?_merge hc]
    cases c.at? path with
    | some d =>
        -- The third schema wins on both sides.
        have hleft := (Definition.like_joined ((a.merge b).at? path) d).symm
        rw [hab.at?_merge hb] at hleft
        have hmiddle := Definition.like_joined (b.at? path) d
        exact .some (hleft.trans (hmiddle.trans (Definition.like_joined (a.at? path) _)))
    | none =>
        cases b.at? path with
        | some d => exact .some (.refl _)
        | none =>
            cases a.at? path with
            | some d => exact .some (.refl _)
            | none => exact .none

def bare (author serial : Nat) (name : String) : Definition :=
  ⟨.declared author serial, name, none, .identity, false, none⟩

/-- A group of which no more is said than its name and what it holds. -/
def holding (author serial : Nat) (name : String) (inner : List Definition) : Definition :=
  ⟨.declared author serial, name, none, .identity, false, some ⟨inner, false⟩⟩

section fields
variable (author serial : Nat) (name : String) (inner : List Definition)

@[simp] theorem name_bare : (bare author serial name).name = name := rfl
@[simp] theorem group_bare : (bare author serial name).group = none := rfl
@[simp] theorem name_holding : (holding author serial name inner).name = name := rfl
@[simp] theorem group_holding :
    (holding author serial name inner).group = some ⟨inner, false⟩ := rfl

end fields

theorem proper_of_definitions {ds : List Definition} {frozen : Bool}
    (hn : (ds.map Definition.name).Nodup)
    (h : ∀ d ∈ ds, ∀ inner, d.group = some inner → inner.Proper) : Proper ⟨ds, frozen⟩ :=
  .intro _ hn (fun _ _ => trivial) h

def lower : Schema :=
  ⟨[holding 0 3 "g" [bare 0 0 "x", holding 0 2 "h" [bare 0 1 "u"]], bare 0 4 "a"], false⟩

def middle : Schema :=
  ⟨[bare 1 0 "s", holding 1 2 "g" [bare 1 1 "y"]], true⟩

def upper : Schema :=
  ⟨[holding 2 3 "g" [holding 2 1 "h" [bare 2 0 "v"], bare 2 2 "x"], bare 2 4 "s"], false⟩

/-- In both orders the names of `g` are `x`, `h` and `y`, and `g` is a group of the same content
with another stamp. -/
theorem merge_assoc_of_compatible_lower_middle_upper :
    (middle.Proper ∧ upper.Proper ∧ lower.Compatible middle ∧ lower.Compatible upper ∧
        middle.Compatible upper) ∧
      ((lower.merge middle).merge upper).namesAt ["g"] = some ["x", "h", "y"] ∧
      (lower.merge (middle.merge upper)).namesAt ["g"] = some ["x", "h", "y"] ∧
      ∃ d e, ((lower.merge middle).merge upper).at? ⟨[], "g"⟩ = some d ∧
        (lower.merge (middle.merge upper)).at? ⟨[], "g"⟩ = some e ∧ d.stamp ≠ e.stamp ∧
        d.Like e := by
  have hmiddle : middle.Proper := by
    have hg : Proper ⟨[bare 1 1 "y"], false⟩ := proper_of_definitions (by decide) (by simp)
    exact proper_of_definitions (by decide) (by simp [hg])
  have hupper : upper.Proper := by
    have hh : Proper ⟨[bare 2 0 "v"], false⟩ := proper_of_definitions (by decide) (by simp)
    have hg : Proper ⟨[holding 2 1 "h" [bare 2 0 "v"], bare 2 2 "x"], false⟩ :=
      proper_of_definitions (by decide) (by simp [hh])
    exact proper_of_definitions (by decide) (by simp [hg])
  have hlm : lower.Compatible middle := by
    have hg : Compatible ⟨[bare 0 0 "x", holding 0 2 "h" [bare 0 1 "u"]], false⟩
        ⟨[bare 1 1 "y"], false⟩ := .of_definitions (by simp)
    exact .of_definitions (by simp [lower, middle, hg])
  have hlu : lower.Compatible upper := by
    have hh : Compatible ⟨[bare 0 1 "u"], false⟩ ⟨[bare 2 0 "v"], false⟩ :=
      .of_definitions (by simp)
    have hg : Compatible ⟨[bare 0 0 "x", holding 0 2 "h" [bare 0 1 "u"]], false⟩
        ⟨[holding 2 1 "h" [bare 2 0 "v"], bare 2 2 "x"], false⟩ := .of_definitions (by simp [hh])
    exact .of_definitions (by simp [lower, upper, hg])
  have hmu : middle.Compatible upper := by
    have hg : Compatible ⟨[bare 1 1 "y"], false⟩
        ⟨[holding 2 1 "h" [bare 2 0 "v"], bare 2 2 "x"], false⟩ := .of_definitions (by simp)
    exact .of_definitions (by simp [middle, upper, hg])
  obtain ⟨hnames, hlike⟩ := merge_assoc_of_compatible hmiddle hupper hlm hlu hmu
  have hleft : ((lower.merge middle).merge upper).namesAt ["g"] = some ["x", "h", "y"] := rfl
  obtain ⟨d, e, hd, he, hstamp⟩ : ∃ d e,
      ((lower.merge middle).merge upper).at? ⟨[], "g"⟩ = some d ∧
        (lower.merge (middle.merge upper)).at? ⟨[], "g"⟩ = some e ∧ d.stamp ≠ e.stamp :=
    ⟨_, _, rfl, rfl, by decide⟩
  have hsame := hlike ⟨[], "g"⟩
  rw [hd, he] at hsame
  cases hsame with
  | some hsame =>
      exact ⟨⟨hmiddle, hupper, hlm, hlu, hmu⟩, hleft, (hnames ["g"]).symm.trans hleft, d, e, hd,
        he, hstamp, hsame⟩

/-- A single setting in the middle makes the group start anew, or goes before it comes to that. -/
example :
    let single : Schema := ⟨[bare 1 0 "g"], false⟩
    ((lower.merge single).merge upper).namesAt ["g"] = some ["h", "x"] ∧
      (lower.merge (single.merge upper)).namesAt ["g"] = some ["x", "h"] :=
  ⟨rfl, rfl⟩

end Schema
end SettingsTree
