import SettingsTree.Proofs.Config.Genuine
import SettingsTree.Proofs.Config.Kinds

/-!
# Sealed configurations refuse every write

In a sealed configuration a write at the end of any walk is refused with the name that it was
made under, and leaves no trace. The converse holds too: if all walks end at such refusals, then
everything is frozen.
-/
namespace SettingsTree.Config

variable {c inner : Config} {name : String} {walk : List String} {fault : Fault}
  {edit : Config → Attempt Config}

theorem set_of_frozen (hz : c.frozen = true) (name : String) (raw : Value) :
    c.set name raw = .failed c (.frozenConfig name) :=
  set_of_refused (by rw [target, if_pos hz]) raw

/-- A configuration that is not frozen gives another reason, if it refuses a value. -/
theorem fault_set_ne_frozen (hz : c.frozen = false) (name : String) :
    (c.set name .unit).fault ≠ some (.frozenConfig name) := by
  cases ht : c.target name with
  | error fault =>
      rw [set_of_refused ht]
      intro h
      obtain rfl := Option.some.inj h
      simp only [target, hz, Bool.false_eq_true, if_false, definition] at ht
      cases hl : c.schema.lookup name with
      | none =>
          rw [hl] at ht
          cases ht
      | some d =>
          rw [hl] at ht
          simp only at ht
          split_ifs at ht
          split at ht <;> cases ht
  | ok target =>
      cases target with
      | setting d =>
          rw [set_of_setting ht, assign]
          cases hv : d.resolve (some .unit) with
          | ok v => simp
          | error fault =>
              obtain ⟨reason, rfl⟩ := Definition.fault_of_resolve hv
              simp
      | group inner =>
          have hm : ∀ entries, Value.unit ≠ .map entries := by simp
          rw [set_of_group_of_not_map ht hm]
          simp

theorem within_failed (ho : c.Ordered) (hd : c.descend walk = .ok inner)
    (he : edit inner = .failed inner fault) : c.within walk edit = .failed c fault := by
  induction walk generalizing c with
  | nil =>
      obtain rfl := Except.ok.inj hd
      exact he
  | cons name rest ih =>
      rw [descend] at hd
      rw [within]
      cases hn : c.nested name with
      | error other =>
          rw [hn] at hd
          cases hd
      | ok group =>
          rw [hn] at hd
          have hf := (nested_eq_ok.1 hn).2
          simp only [ih (ho.inside hf) hd]
          show Attempt.failed (c.withGroup name group) fault = _
          rw [ho.withGroup_self hf]

theorem fault_within (hd : c.descend walk = .ok inner) :
    (c.within walk edit).fault = (edit inner).fault := by
  induction walk generalizing c with
  | nil =>
      obtain rfl := Except.ok.inj hd
      rfl
  | cons name rest ih =>
      rw [descend] at hd
      rw [within]
      cases hn : c.nested name with
      | error other =>
          rw [hn] at hd
          cases hd
      | ok group =>
          rw [hn] at hd
          exact ih hd

/-- Where groups are declared, walks reach all of them. -/
theorem Genuine.sealed (hg : c.Genuine)
    (h : ∀ walk inner, c.descend walk = .ok inner → inner.frozen = true) : c.Sealed := by
  induction hg with
  | intro c hm hgroups _ ih =>
      refine .intro c (h [] c rfl) fun name inner hf => ih name inner hf fun walk deeper hd => ?_
      have hl : ∃ d, c.schema.lookup name = some d := by
        have hsome := hgroups name
        rw [hf] at hsome
        obtain ⟨t, ht⟩ := Option.isSome_iff_exists.1 hsome.symm
        obtain ⟨d, hl, _⟩ := Option.bind_eq_some_iff.1 ht
        exact ⟨d, hl⟩
      refine h (name :: walk) deeper ?_
      rw [Config.descend, nested_eq_ok.2 ⟨hl, hf⟩]
      exact hd

/-- A configuration is sealed exactly if every path through groups refuses every value with
its leaf. -/
theorem sealed_iff_refuses (hg : c.Genuine) (ho : c.Ordered) :
    c.Sealed ↔ ∀ (path : Path) (raw : Value) (inner : Config),
      c.descend path.parents = .ok inner →
      c.setAt path raw = .failed c (.frozenConfig path.leaf) := by
  constructor
  · intro h path raw inner hd
    have hi : inner.Sealed := descend_keeps (fun h hf => h.inside hf) h hd
    exact within_failed ho hd (set_of_frozen hi.here path.leaf raw)
  · intro h
    refine hg.sealed fun walk inner hd => ?_
    by_contra hz
    have hfault := congrArg Attempt.fault (h ⟨walk, ""⟩ .unit inner hd)
    rw [setAt, fault_within hd] at hfault
    exact fault_set_ne_frozen (Bool.eq_false_iff.2 hz) "" hfault

end SettingsTree.Config
