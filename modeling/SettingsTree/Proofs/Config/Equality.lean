import SettingsTree.Proofs.Config.Wholes
import SettingsTree.Proofs.Value.Equality

/-!
# Equality of configurations

Two configurations are equal if both resolve and their maps are equal values. Whether they are
depends only on what is read at their paths: not on the order of declarations, on the definitions
themselves, on frozen marks, or on where a value is kept. A configuration that does not resolve is
equal to nothing, not even to itself.
-/
namespace SettingsTree

/-- The schemas declare the same settings, in whatever order and with whatever stamps. -/
def Schema.Rephrases (s t : Schema) : Prop :=
  ∀ name, Option.Rel (fun d e => d.fallback = e.fallback ∧ d.construct = e.construct)
    (s.lookup name) (t.lookup name)

theorem Schema.Rephrases.mem_names {s t : Schema} {name : String} (h : s.Rephrases t) :
    name ∈ s.names ↔ name ∈ t.names := by
  rw [← exists_lookup_iff, ← exists_lookup_iff]
  have hname := h name
  generalize s.lookup name = d, t.lookup name = e at hname
  cases hname <;> simp

namespace Config

variable {heap heap' : Heap} {a b c inner : Config} {s : Schema} {name : String} {d : Definition}
  {v whole : Value}

theorem same_iff_wholes :
    a.same b = true ↔ ∃ x y, a.toValue = .ok x ∧ b.toValue = .ok y ∧ x.same y = true := by
  unfold same
  cases a.toValue <;> cases b.toValue <;> simp

theorem same_symm (h : a.same b = true) : b.same a = true := by
  obtain ⟨x, y, hx, hy, hsame⟩ := same_iff_wholes.1 h
  exact same_iff_wholes.2 ⟨y, x, hy, hx, Value.same_symm hsame⟩

theorem same_trans (h : a.same b = true) (h' : b.same c = true) : a.same c = true := by
  obtain ⟨x, y, hx, hy, hsame⟩ := same_iff_wholes.1 h
  obtain ⟨y', z, hy', hz, hsame'⟩ := same_iff_wholes.1 h'
  obtain rfl := Except.ok.inj (hy.symm.trans hy')
  exact same_iff_wholes.2 ⟨x, z, hx, hz, Value.same_trans hsame hsame'⟩

theorem same_self_iff : c.same c = true ↔ ∃ whole, c.toValue = .ok whole := by
  rw [same_iff_wholes]
  constructor
  · rintro ⟨x, _, hx, _, _⟩
    exact ⟨x, hx⟩
  · rintro ⟨x, hx⟩
    exact ⟨x, x, hx, hx, Value.same_self x⟩

/-- No other configuration is equal to one of them only, on either side. -/
def Interchangeable (a b : Config) : Prop :=
  ∀ other, a.same other = b.same other ∧ other.same a = other.same b

theorem interchangeable_of_wholes
    (h : ∀ whole, a.toValue = .ok whole ↔ b.toValue = .ok whole) : a.Interchangeable b := by
  refine fun other => ⟨Bool.eq_iff_iff.2 ?_, Bool.eq_iff_iff.2 ?_⟩ <;>
    simp only [same_iff_wholes, h]

/-- Groups are compared as whole configurations. -/
theorem same_iff_values {other : Config} (ha : a.nested name = .ok inner)
    (hb : b.nested name = .ok other) :
    inner.same other = true ↔
      ∃ v w, a.value name = .ok v ∧ b.value name = .ok w ∧ v.same w = true := by
  obtain ⟨⟨d, hl⟩, hf⟩ := nested_eq_ok.1 ha
  obtain ⟨⟨e, hl'⟩, hf'⟩ := nested_eq_ok.1 hb
  rw [value_of_group hl hf, value_of_group hl' hf']
  exact same_iff_wholes

/-- The whole is determined by what the declared names read as. -/
theorem toValue_of_reads (ha : a.schema.Proper) (hb : b.schema.Proper)
    (hnames : ∀ name, name ∈ a.schema.names ↔ name ∈ b.schema.names)
    (hreads : ∀ name ∈ a.schema.names, ∀ v, a.value name = .ok v → b.value name = .ok v)
    (hw : a.toValue = .ok whole) : b.toValue = .ok whole := by
  have hdeclared := (exists_toValue_iff ha).1 ⟨_, hw⟩
  obtain ⟨t, ht, rfl⟩ := exists_tabulated ha hw
  obtain ⟨whole', hw'⟩ := (exists_toValue_iff hb).2 fun name d hl => by
    have hm := (hnames name).2 (Schema.exists_lookup_iff.1 ⟨d, hl⟩)
    obtain ⟨e, he⟩ := Schema.exists_lookup_iff.2 hm
    obtain ⟨v, hv⟩ := hdeclared name e he
    exact ⟨v, hreads name hm v hv⟩
  obtain ⟨u, hu, rfl⟩ := exists_tabulated hb hw'
  have htables : t = u := ht.sorted.ext hu.sorted fun name => by
    by_cases hm : name ∈ a.schema.names
    · obtain ⟨v, hv⟩ := (ht.exists_find?_iff ha hw).2 hm
      have hread := hreads name hm v ((ht.find?_eq_some name v).1 hv).2
      rw [hv, (hu.find?_eq_some name v).2
        ⟨Schema.exists_lookup_iff.2 ((hnames name).1 hm), hread⟩]
    · have hnone : ∀ {s : Schema}, name ∉ s.names → s.lookup name = none := fun hn =>
        Definition.find?_eq_none_iff.2 hn
      rw [ht.find?_eq_none (hnone hm), hu.find?_eq_none (hnone fun h => hm ((hnames name).2 h))]
  rw [hw', htables]

/-- The same paths lead to groups and to single settings, and the same is read at these. -/
structure LooksLike (a b : Config) : Prop where
  groups : ∀ walk, (∃ inner, a.descend walk = .ok inner) ↔ ∃ inner, b.descend walk = .ok inner
  singles : ∀ path, a.HasSingle path ↔ b.HasSingle path
  reads : ∀ path, a.HasSingle path → ∀ v, a.getAt path = .ok v ↔ b.getAt path = .ok v

theorem getAt_under (hn : c.nested name = .ok inner) (path : Path) :
    c.getAt (path.under name) = inner.getAt path := by
  rw [getAt, getAt, Path.under, descend_cons hn]

namespace LooksLike
variable {i j : Config}

theorem symm (h : a.LooksLike b) : b.LooksLike a where
  groups walk := (h.groups walk).symm
  singles path := (h.singles path).symm
  reads path hp v := (h.reads path ((h.singles path).2 hp) v).symm

theorem inside (h : a.LooksLike b) (ha : a.nested name = .ok i) (hb : b.nested name = .ok j) :
    i.LooksLike j where
  groups walk := by
    have hwalk := h.groups (name :: walk)
    rwa [descend_cons ha, descend_cons hb] at hwalk
  singles path := by
    rw [← hasSingle_under ha, ← hasSingle_under hb]
    exact h.singles _
  reads path hp v := by
    rw [← getAt_under ha, ← getAt_under hb]
    exact h.reads _ ((hasSingle_under ha).2 hp) v

theorem exists_nested (h : a.LooksLike b) (ha : a.nested name = .ok i) :
    ∃ j, b.nested name = .ok j := by
  obtain ⟨j, hj⟩ := (h.groups [name]).1 ⟨i, descend_cons ha []⟩
  cases hn : b.nested name with
  | error fault => simp [Config.descend, hn] at hj
  | ok j => exact ⟨j, rfl⟩

/-- Under a declared name there is a single setting in both, or a group in both. -/
theorem cases_of_mem (h : a.LooksLike b) (hg : a.Genuine) (hm : name ∈ a.schema.names) :
    a.HasSingle ⟨[], name⟩ ∨ ∃ i j, a.nested name = .ok i ∧ b.nested name = .ok j := by
  obtain ⟨d, hl⟩ := Schema.exists_lookup_iff.2 hm
  cases hgroup : d.group with
  | none => exact .inl ⟨a, d, rfl, hl, hgroup⟩
  | some s =>
      have hsome := hg.groups name
      rw [hl, Option.bind_some, hgroup] at hsome
      obtain ⟨i, hi⟩ := Option.isSome_iff_exists.1 hsome
      have ha := nested_eq_ok.2 ⟨⟨d, hl⟩, hi⟩
      obtain ⟨j, hb⟩ := h.exists_nested ha
      exact .inr ⟨i, j, ha, hb⟩

theorem mem_names (h : a.LooksLike b) (hg : a.Genuine) (hm : name ∈ a.schema.names) :
    name ∈ b.schema.names := by
  rcases h.cases_of_mem hg hm with hsingle | ⟨_, _, _, hb⟩
  · obtain ⟨inner, d, hd, hl, _⟩ := (h.singles _).1 hsingle
    obtain rfl := Except.ok.inj hd
    exact Schema.exists_lookup_iff.1 ⟨d, hl⟩
  · exact Schema.exists_lookup_iff.1 (nested_eq_ok.1 hb).1

theorem toValue_eq (h : a.LooksLike b) (ha : a.Genuine) (hb : b.Genuine) (hka : a.Known heap)
    (hkb : b.Known heap') (hw : a.toValue = .ok whole) : b.toValue = .ok whole := by
  induction a using inductionOn generalizing b whole with
  | step a ih =>
      refine toValue_of_reads hka.here.proper hkb.here.proper
        (fun name => ⟨h.mem_names ha, h.symm.mem_names hb⟩) (fun name hm v hv => ?_) hw
      rcases h.cases_of_mem ha hm with hsingle | ⟨i, j, hi, hj⟩
      · exact (h.reads _ hsingle v).1 hv
      · obtain ⟨⟨d, hl⟩, hf⟩ := nested_eq_ok.1 hi
        obtain ⟨⟨e, hl'⟩, hf'⟩ := nested_eq_ok.1 hj
        rw [value_of_group hl hf] at hv
        rw [value_of_group hl' hf']
        exact ih name i hf (h.inside hi hj) (ha.inside hf) (hb.inside hf') (hka.inside hf)
          (hkb.inside hf') hv

theorem interchangeable (h : a.LooksLike b) (ha : a.Genuine) (hb : b.Genuine)
    (hka : a.Known heap) (hkb : b.Known heap') : a.Interchangeable b :=
  interchangeable_of_wholes fun _ =>
    ⟨h.toValue_eq ha hb hka hkb, h.symm.toValue_eq hb ha hkb hka⟩

end LooksLike

mutual

theorem toValue_finalize : ∀ c : Config, c.finalize.toValue = c.toValue
  | ⟨_, _, _, true⟩ => by rw [finalize]
  | ⟨_, _, groups, false⟩ => by rw [finalize, toValue, toValue, groupValues_finalize groups]

theorem groupValues_finalize : ∀ groups : List (String × Config),
    groupValues (finalizeGroups groups) = groupValues groups
  | [] => rfl
  | (_, c) :: rest => by
      rw [finalizeGroups, groupValues, groupValues, toValue_finalize c, groupValues_finalize rest]

end

/-- Storing what a setting reads as changes nothing in what is read. -/
theorem value_withValue (hl : c.schema.lookup name = some d)
    (hf : Table.find? name c.groups = none) (hv : c.value name = .ok v) (other : String) :
    (c.withValue name v).value other = c.value other := by
  by_cases he : other = name
  · subst he
    rw [hv]
    simp only [value, get, definition, withValue, hl, hf, Table.find?_insert_self]
    rfl
  · simp only [value, get, definition, withValue, Table.find?_insert_of_ne he]

theorem toValue_withValue (hs : c.schema.Proper) (hl : c.schema.lookup name = some d)
    (hf : Table.find? name c.groups = none) (hv : c.value name = .ok v) :
    (c.withValue name v).toValue = .ok whole ↔ c.toValue = .ok whole := by
  have hread := value_withValue hl hf hv
  refine ⟨toValue_of_reads hs hs (fun _ => .rfl) fun other _ w hw => ?_,
    toValue_of_reads hs hs (fun _ => .rfl) fun other _ w hw => ?_⟩
  · rwa [← hread]
  · rwa [hread]

theorem value_rephrased (h : c.schema.Rephrases s) (name : String) :
    ({ c with schema := s } : Config).value name = c.value name := by
  have hname := h name
  generalize hl : c.schema.lookup name = found, hl' : s.lookup name = other at hname
  cases hname with
  | none => simp only [value, get, definition, hl, hl']
  | @some d e hsame =>
      have hnames : d.name = e.name :=
        (Schema.lookup_some hl).2.trans (Schema.lookup_some hl').2.symm
      have hresolve : d.resolve none = e.resolve none := by
        rw [Definition.resolve, Definition.resolve, hsame.1, hsame.2, hnames]
      simp only [value, get, definition, hl, hl', hresolve]

theorem toValue_rephrased (hc : c.schema.Proper) (hs : s.Proper) (h : c.schema.Rephrases s) :
    ({ c with schema := s } : Config).toValue = .ok whole ↔ c.toValue = .ok whole := by
  refine ⟨toValue_of_reads hs hc (fun _ => h.mem_names.symm) fun name _ v hv => ?_,
    toValue_of_reads hc hs (fun _ => h.mem_names) fun name _ v hv => ?_⟩
  · rwa [← value_rephrased h]
  · rwa [value_rephrased h]

/-- What has no part in which configurations a configuration is equal to: frozen marks, whether a
value is stored or is the default, and the order and the stamps of definitions. -/
structure DecidedByReads (c : Config) : Prop where
  marks : c.Interchangeable c.duplicate ∧ c.Interchangeable c.finalize
  stored : ∀ name d v, c.schema.lookup name = some d → d.group = none → c.value name = .ok v →
    c.Interchangeable (c.withValue name v)
  schema : ∀ s : Schema, s.Proper → c.schema.Rephrases s →
    c.Interchangeable { c with schema := s }

theorem Genuine.decidedByReads (h : c.Genuine) (hs : c.schema.Proper) : c.DecidedByReads where
  marks := by
    refine ⟨interchangeable_of_wholes fun _ => ?_, interchangeable_of_wholes fun _ => ?_⟩
    · rw [toValue_duplicate]
    · rw [toValue_finalize]
  stored name d v hl hg hv := interchangeable_of_wholes fun _ =>
    (toValue_withValue hs hl (h.no_group_of_single hl hg) hv).symm
  schema s hproper hrephrased := interchangeable_of_wholes fun _ =>
    (toValue_rephrased hs hproper hrephrased).symm

end Config
end SettingsTree
