import SettingsTree.Proofs.Config.Genuine
import SettingsTree.Proofs.Config.Values

/-!
# What a stage shows and what it commits to

A stage is read without building anything: each name reads as its entered scope, or as the
constructor makes its raw value, or as the target has it. What the stage commits to reads the
same, name by name and as a whole, and so do the scopes inside and what they commit to.
-/
namespace SettingsTree.Stage

open Config

variable {heap : Heap} {s inner : Stage} {c : Config} {name : String}

theorem find?_scopeValues (name : String) (scopes : List (String × Stage)) :
    Table.find? name (scopeValues scopes) = (Table.find? name scopes).map toValue := by
  induction scopes with
  | nil => rfl
  | cons head rest ih =>
      obtain ⟨key, inner⟩ := head
      by_cases same : key = name <;> simp [scopeValues, Table.find?_cons, same, ih]

/-- A stage shows as a whole what it shows under the names. -/
theorem valuesOf_eq {target : Config} {writes : List (String × Value)}
    {scopes : List (String × Except Fault Value)} {values : List (String × Value)}
    {groups : List (String × Except Fault Value)} {ds : List Definition}
    (h : ∀ d ∈ ds, valueOf target writes scopes d.name = Config.valueOf values groups d) :
    valuesOf target writes scopes (ds.map Definition.name) = Config.valuesOf values groups ds := by
  induction ds with
  | nil => rfl
  | cons d rest ih =>
      rw [List.forall_mem_cons] at h
      rw [List.map_cons, valuesOf, Config.valuesOf, h.1]
      cases Config.valueOf values groups d with
      | error fault => rfl
      | ok v => exact congrArg (Except.map ((d.name, v) :: ·)) (ih h.2)

theorem toValue_eq (s : Stage) :
    s.toValue = (valuesOf s.target s.writes (scopeValues s.scopes) s.target.schema.names).map
      Value.ofFields := by
  cases s
  rw [toValue]

namespace Commits

theorem get_eq_of_scopes (h : Commits s c) (hs : s.Fits) (ht : s.target.Genuine)
    (hscopes : ∀ inner made, Table.find? name s.scopes = some inner →
      Table.find? name c.groups = some made → inner.toValue = made.toValue) :
    s.get name = c.value name := by
  unfold get valueOf
  rw [find?_scopeValues]
  cases hscope : Table.find? name s.scopes with
  | some inner =>
      obtain ⟨made, hm⟩ := h.entered hscope
      obtain ⟨⟨d, hl⟩, _⟩ := nested_eq_ok.1 (hs.there hscope)
      rw [value_of_group (d := d) (by rwa [h.schema]) hm]
      exact hscopes inner made hscope hm
  | none =>
      have hgroup := h.others hscope
      cases hwrite : Table.find? name s.writes with
      | some raw =>
          obtain ⟨d, v, hl, hv, hstored⟩ := h.written hwrite
          obtain ⟨e, he, hg⟩ := hs.single hwrite
          obtain rfl := Option.some.inj (hl.symm.trans he)
          rw [ht.no_group_of_single hl hg, Option.map_none] at hgroup
          simp only [Option.map_none, definition_eq_ok.2 hl, hv]
          simp only [value, Config.get, definition_eq_ok.2 (h.schema ▸ hl), hgroup, hstored]
          rfl
      | none =>
          have hkept := h.kept hwrite
          have hdefinition : c.definition name = s.target.definition name := by
            rw [Config.definition, Config.definition, h.schema]
          simp only [Option.map_none]
          rw [← value_duplicate]
          simp only [value, Config.get, definition_duplicate, hdefinition, hgroup, hkept,
            find?_groups_duplicate, values_duplicate]

theorem toValue_eq (h : Commits s c) (hs : s.Fits) (hk : s.target.Known heap)
    (ht : s.target.Genuine) : s.toValue = c.toValue := by
  induction h with
  | intro s c hschema hz hsv hsg hw hkept he ho hi ih =>
      have hc := Commits.intro s c hschema hz hsv hsg hw hkept he ho hi
      have hnames : s.target.schema.names = c.schema.definitions.map Definition.name := by
        rw [hschema]
        rfl
      rw [Stage.toValue_eq, Config.toValue_eq, toMap, hnames]
      refine congrArg _ (valuesOf_eq fun d hd => ?_)
      have hl := hk.here.lookup_of_mem (hschema ▸ hd)
      rw [← value_of_lookup (c := c) (hschema ▸ hl)]
      refine hc.get_eq_of_scopes hs ht fun inner made hf hm => ?_
      have hn := (nested_eq_ok.1 (hs.there hf)).2
      exact ih d.name inner made hf hm (hs.inside hf) (hk.inside hn) (ht.inside hn)

/-- What a stage shows under a name is what it commits to there. -/
theorem get_eq (h : Commits s c) (hs : s.Fits) (hk : s.target.Known heap)
    (ht : s.target.Genuine) (name : String) : s.get name = c.value name := by
  refine h.get_eq_of_scopes hs ht fun inner made hf hm => ?_
  have hn := (nested_eq_ok.1 (hs.there hf)).2
  exact (h.inside hf hm).toValue_eq (hs.inside hf) (hk.inside hn) (ht.inside hn)

end Commits

/-- The stage fits a target of which nothing is known but that it can be read from a world. -/
structure Sits (heap : Heap) (s : Stage) : Prop where
  fits : s.Fits
  stamped : s.target.Stamped heap
  genuine : s.target.Genuine

theorem Sits.scope (h : s.Sits heap) (hs : s.scope name = .ok inner) : inner.Sits heap := by
  obtain ⟨hfit, hn⟩ := h.fits.scope hs
  have hgroup := (nested_eq_ok.1 hn).2
  exact ⟨hfit, ⟨h.stamped.known.inside hgroup, h.stamped.ordered.inside hgroup⟩,
    h.genuine.inside hgroup⟩

theorem Sits.descend {walk : List String} (h : s.Sits heap) (hd : s.descend walk = .ok inner) :
    inner.Sits heap ∧ s.target.descend walk = .ok inner.target := by
  induction walk generalizing s with
  | nil =>
      obtain rfl := Except.ok.inj hd
      exact ⟨h, rfl⟩
  | cons name rest ih =>
      rw [Stage.descend] at hd
      split at hd
      · cases hd
      · next scope hscope =>
          rw [Config.descend, (h.fits.scope hscope).2]
          exact ih (h.scope hscope) hd

/-- At the end of a walk a scope commits to the group that the same walk leads to. -/
theorem Commits.descend {walk : List String} (h : Commits s c) (hs : s.Sits heap)
    (hd : s.descend walk = .ok inner) : ∃ made, c.descend walk = .ok made ∧ Commits inner made := by
  induction walk generalizing s c with
  | nil =>
      obtain rfl := Except.ok.inj hd
      exact ⟨c, rfl, h⟩
  | cons name rest ih =>
      rw [Stage.descend] at hd
      split at hd
      · cases hd
      · next scope hscope =>
          obtain ⟨made, hn, hmade⟩ := h.scope hs.stamped.ordered hscope
          rw [Config.descend, hn]
          exact ih hmade (hs.scope hscope) hd

theorem areEmpty_iff {scopes : List (String × Stage)} :
    areEmpty scopes = true ↔ ∀ entry ∈ scopes, entry.2.isEmpty = true := by
  induction scopes with
  | nil => simp [areEmpty]
  | cons head rest ih => rw [areEmpty, Bool.and_eq_true, ih, List.forall_mem_cons]

/-- A stage in which nothing waits commits to the duplicate of its target, whatever scopes
were entered. -/
theorem commits_of_isEmpty (h : s.isEmpty = true) (hs : s.Fits) (ht : s.target.Ordered) :
    Commits s s.target.duplicate := by
  induction s using inductionOn with
  | step s ih =>
      obtain ⟨target, writes, scopes⟩ := s
      rw [isEmpty, Bool.and_eq_true, List.isEmpty_iff, areEmpty_iff] at h
      obtain ⟨rfl, hempty⟩ := h
      refine .intro _ _ (schema_duplicate target) (frozen_duplicate target) ht.duplicate.values
        ht.duplicate.groups (fun _ _ hf => nomatch hf) (fun name _ => by rw [values_duplicate])
        (fun name inner hf => ?_) (fun name _ => find?_groups_duplicate target name)
        fun name inner made hf hm => ?_
      · have hn := (nested_eq_ok.1 (hs.there hf)).2
        exact ⟨inner.target.duplicate, by rw [find?_groups_duplicate, hn]; rfl⟩
      · have hn := (nested_eq_ok.1 (hs.there hf)).2
        have hentry := Table.mem_of_find? hf
        rw [find?_groups_duplicate, hn] at hm
        obtain rfl := Option.some.inj hm
        exact ih _ hentry (hempty _ hentry) (hs.inside hf) (ht.inside hn)

end SettingsTree.Stage
