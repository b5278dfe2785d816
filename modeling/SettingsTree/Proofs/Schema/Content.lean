import SettingsTree.Proofs.Schema.Mapping
import SettingsTree.Schema.Script

/-!
# What a script says

Two runs of a script give out other stamps if they take them from other supplies. Without its
stamps a schema is what was said in it: the names in their order, and for each of them the default,
the constructor, the reader and the group, at every depth. The supply has no part in that, and none
in the fault that stops a script.
-/
namespace SettingsTree

mutual

/-- The definition with one and the same stamp everywhere, and nothing else changed. -/
def Definition.unstamped : Definition → Definition
  | ⟨_, name, fallback, construct, reader, group⟩ =>
      ⟨.declared 0 0, name, fallback, construct, reader, Definition.unstampedGroup group⟩

def Definition.unstampedGroup : Option Schema → Option Schema
  | none => none
  | some s => some (Schema.unstamped s)

/-- What a schema says. -/
def Schema.unstamped : Schema → Schema
  | ⟨definitions, frozen⟩ => ⟨Schema.unstampedAll definitions, frozen⟩

def Schema.unstampedAll : List Definition → List Definition
  | [] => []
  | d :: rest => Definition.unstamped d :: Schema.unstampedAll rest

end

@[simp] theorem Definition.name_unstamped (d : Definition) : d.unstamped.name = d.name := by
  cases d; rfl

theorem Definition.unstampedGroup_eq (group : Option Schema) :
    unstampedGroup group = group.map Schema.unstamped := by
  cases group <;> rfl

namespace Schema

theorem unstampedAll_eq (ds : List Definition) :
    unstampedAll ds = ds.map Definition.unstamped := by
  induction ds with
  | nil => rfl
  | cons d rest ih => rw [unstampedAll, ih, List.map_cons]

theorem unstamped_eq_mapped : unstamped = mapped Definition.unstamped :=
  funext fun ⟨ds, frozen⟩ => by rw [unstamped, unstampedAll_eq, mapped]

@[simp] theorem names_unstamped (s : Schema) : s.unstamped.names = s.names := by
  rw [unstamped_eq_mapped]
  exact Definition.names_map Definition.name_unstamped s.definitions

theorem declare_unstamped (s : Schema) (d : Definition) :
    s.unstamped.declare d.unstamped = (s.declare d).into unstamped := by
  rw [unstamped_eq_mapped]
  exact declare_mapped Definition.name_unstamped s d

theorem incorporate_unstamped (s other : Schema) :
    s.unstamped.incorporate other.unstamped = (s.incorporate other).into unstamped := by
  rw [unstamped_eq_mapped]
  exact incorporate_mapped Definition.name_unstamped s other

end Schema

namespace Attempt
variable {σ τ : Type} {place : σ → τ} {a b : Attempt σ}

/-- Attempts that look the same fail for the same reason or leave states that look the same. -/
theorem toExcept_of_into_eq (h : a.into place = b.into place) :
    (∃ fault, a.toExcept = .error fault ∧ b.toExcept = .error fault) ∨
      ∃ s t, a.toExcept = .ok s ∧ b.toExcept = .ok t ∧ place s = place t := by
  obtain ⟨s, fault⟩ := a
  obtain ⟨t, cause⟩ := b
  obtain rfl : fault = cause := congrArg Attempt.fault h
  have hplace : place s = place t := congrArg Attempt.state h
  cases fault with
  | none => exact .inr ⟨s, t, rfl, rfl, hplace⟩
  | some fault => exact .inl ⟨fault, rfl, rfl⟩

theorem andThen_into_congr {next : σ → Attempt σ} (h : a.into place = b.into place)
    (hn : ∀ s t, place s = place t → (next s).into place = (next t).into place) :
    (a.andThen next).into place = (b.andThen next).into place := by
  have hplace : (a.into place).state = (b.into place).state := congrArg state h
  have hfault : (a.into place).fault = (b.into place).fault := congrArg fault h
  rw [fault_into, fault_into] at hfault
  cases hb : b.fault with
  | none =>
      rw [andThen_of_fault_eq_none hb, andThen_of_fault_eq_none (hfault.trans hb)]
      exact hn a.state b.state hplace
  | some fault =>
      rw [andThen_of_fault_eq_some hb, andThen_of_fault_eq_some (hfault.trans hb), h]

end Attempt

namespace Scope
variable {a b : Scope}

def content (scope : Scope) : Schema :=
  scope.schema.unstamped

theorem leave_content {x y : Attempt Schema} {supply supply' : Supply}
    (h : x.into Schema.unstamped = y.into Schema.unstamped) :
    (a.leave x supply).into content = (b.leave y supply').into content := by
  obtain ⟨s, fault⟩ := x
  obtain ⟨t, cause⟩ := y
  obtain rfl : fault = cause := congrArg Attempt.fault h
  have hst : s.unstamped = t.unstamped := congrArg Attempt.state h
  exact congrArg (Attempt.mk · fault) hst

theorem incorporate_content {other other' : Schema} {supply supply' : Supply}
    (h : a.content = b.content) (ho : other.unstamped = other'.unstamped) :
    (a.incorporate supply other).into content = (b.incorporate supply' other').into content := by
  refine leave_content ?_
  rw [← Schema.incorporate_unstamped, ← Schema.incorporate_unstamped, ho]
  exact congrArg (Schema.incorporate · _) h

theorem add_content {supply supply' : Supply} {name : String} {options : Options}
    {group group' : Option Schema} (h : a.content = b.content)
    (hg : group.map Schema.unstamped = group'.map Schema.unstamped) :
    (a.add supply name options group).into content =
      (b.add supply' name options group').into content := by
  unfold add Definition.build
  by_cases hname : isIdentifier name = true
  · simp only [if_pos hname]
    generalize hd : Definition.mk supply.stamp name options.fallback
      (options.construct.getD .identity) options.reader group = d
    generalize he : Definition.mk supply'.stamp name options.fallback
      (options.construct.getD .identity) options.reader group' = e
    have hsame : d.unstamped = e.unstamped := by
      rw [← hd, ← he, Definition.unstamped, Definition.unstamped, Definition.unstampedGroup_eq,
        Definition.unstampedGroup_eq, hg]
    refine leave_content ?_
    rw [← Schema.declare_unstamped, ← Schema.declare_unstamped, hsame]
    exact congrArg (Schema.declare · _) h
  · simp only [if_neg hname]
    exact congrArg (Attempt.failed · _) h

theorem nest_content {name : String} {options : Options} {block : Scope → Attempt Scope}
    (h : a.content = b.content)
    (hblock : (block (start a.supply)).into content = (block (start b.supply)).into content) :
    (a.nest name options block).into content = (b.nest name options block).into content := by
  unfold nest
  split_ifs
  · exact congrArg (Attempt.failed · _) h
  · exact congrArg (Attempt.failed · _) h
  · rcases Attempt.toExcept_of_into_eq hblock with ⟨fault, ha, hb⟩ | ⟨s, t, ha, hb, hst⟩
    · rw [ha, hb]
      exact congrArg (Attempt.failed · fault) h
    · rw [ha, hb]
      exact add_content h (congrArg some hst)

theorem takeIn_content {script : Scope → Attempt Scope} (h : a.content = b.content)
    (hscript : (script (start a.supply)).into content = (script (start b.supply)).into content) :
    (a.takeIn script).into content = (b.takeIn script).into content := by
  unfold takeIn
  rcases Attempt.toExcept_of_into_eq hscript with ⟨fault, ha, hb⟩ | ⟨s, t, ha, hb, hst⟩
  · rw [ha, hb]
    exact congrArg (Attempt.failed · fault) h
  · rw [ha, hb]
    exact incorporate_content h hst

mutual

/-- A statement says the same in scopes of the same content. -/
theorem declare_content : ∀ {a b : Scope} (d : Declaration), a.content = b.content →
    (a.declare d).into content = (b.declare d).into content
  | a, b, .setting name options, h => by
      rw [declare, declare]
      exact add_content h rfl
  | a, b, .nested name options block, h => by
      rw [declare, declare]
      -- The block starts from an empty schema in both scopes.
      exact nest_content h (run_content block rfl)
  | a, b, .inclusion other, h => by
      rw [declare, declare]
      exact incorporate_content h rfl
  | a, b, .group name script, h => by
      rw [declare, declare]
      exact takeIn_content h (run_content script rfl)
  | a, b, .unregistered name, h => by
      rw [declare, declare]
      exact congrArg (Attempt.failed · _) h

theorem run_content : ∀ {a b : Scope} (ds : List Declaration), a.content = b.content →
    (a.run ds).into content = (b.run ds).into content
  | a, b, [], h => by
      rw [run, run]
      exact congrArg Attempt.done h
  | a, b, d :: rest, h => by
      rw [run, run]
      exact Attempt.andThen_into_congr (declare_content d h) fun s t hst => run_content rest hst

end

end Scope
end SettingsTree
