import Mathlib.Data.List.Induction
import SettingsTree.Proofs.Schema.Merging
import SettingsTree.Proofs.Schema.Positions
import SettingsTree.Proofs.Schema.Statements

/-!
# How schemas grow

Every statement that goes through brings definitions into its scope: a setting or a group one
definition, and what takes in other definitions all of these in their order. A schema lists the
names that were brought into it in the order in which they came first, and under each name the
definition that came last. A merge brings the definitions of the second schema, joined with those
of the first. A frozen schema stays as it is.
-/
namespace SettingsTree

def Options.definition (options : Options) (stamp : Stamp) (name : String)
    (group : Option Schema) : Definition :=
  ⟨stamp, name, options.fallback, options.construct.getD .identity, options.reader, group⟩

/-- The definitions that a statement brings into its scope if it goes through. -/
def Declaration.brings (supply : Supply) : Declaration → List Definition
  | .setting name options => [options.definition supply.stamp name none]
  | .nested name options block =>
      match Schema.compile block supply with
      | .ok inner => [options.definition inner.supply.stamp name (some inner.schema)]
      | .error _ => []
  | .inclusion other => other.definitions
  | .group _ script =>
      match Schema.compile script supply with
      | .ok inner => inner.schema.definitions
      | .error _ => []
  | .unregistered _ => []

namespace Definition

theorem insertAll_append (first second ours : List Definition) :
    insertAll (first ++ second) ours = insertAll second (insertAll first ours) :=
  List.foldl_append

theorem insertAll_concat (ds ours : List Definition) (d : Definition) :
    insertAll (ds ++ [d]) ours = d.insert (insertAll ds ours) :=
  insertAll_append ds [d] ours

/-- The names are listed in the order in which they came first. -/
theorem names_insertAll (ds : List Definition) :
    (insertAll ds []).map name = (ds.map name).eraseDups := by
  induction ds using List.reverseRecOn with
  | nil => rfl
  | append_singleton ds d ih =>
      rw [insertAll_concat, names_insert, ih, List.map_append, List.eraseDups_append]
      show _ = (ds.map name).eraseDups ++ ([d.name].removeAll (ds.map name)).eraseDups
      generalize ds.map name = names
      by_cases hm : d.name ∈ names
      · have hold : [d.name].removeAll names = [] := by simp [List.removeAll, hm]
        rw [if_pos (List.mem_eraseDups.2 hm), hold, List.eraseDups_nil, List.append_nil]
      · have hnew : [d.name].removeAll names = [d.name] := by simp [List.removeAll, hm]
        rw [if_neg (mt List.mem_eraseDups.1 hm), hnew]
        rfl

/-- Under each name stands the definition that came last. -/
theorem find?_insertAll (name : String) (ds : List Definition) :
    find? name (insertAll ds []) = (ds.filter fun d => d.name = name).getLast? := by
  induction ds using List.reverseRecOn with
  | nil => rfl
  | append_singleton ds d ih =>
      rw [insertAll_concat, find?_insert, ih, List.filter_append, List.getLast?_append]
      by_cases hn : d.name = name <;> simp [hn]

end Definition

namespace Schema
variable {s other after : Schema} {d : Definition}

theorem eq_of_declare_done (h : s.declare d = .done after) :
    after = { s with definitions := d.insert s.definitions } := by
  unfold declare at h
  split_ifs at h
  · cases congrArg Attempt.fault h
  · exact (congrArg Attempt.state h).symm

theorem eq_of_incorporate_done (h : s.incorporate other = .done after) :
    after = { s with definitions := Definition.insertAll other.definitions s.definitions } := by
  unfold incorporate at h
  split at h
  · cases congrArg Attempt.fault h
  · exact (congrArg Attempt.state h).symm

end Schema

namespace Scope
variable {scope after : Scope}

theorem schema_of_leave {attempt : Attempt Schema} {supply : Supply}
    (h : scope.leave attempt supply = .done after) : attempt = .done after.schema := by
  have hfault : attempt.fault = none := congrArg Attempt.fault h
  rw [Attempt.eq_done hfault, ← schema_leave scope attempt supply, h, Attempt.state_done]

theorem schema_of_add {supply : Supply} {name : String} {options : Options}
    {group : Option Schema} (h : scope.add supply name options group = .done after) :
    scope.schema.declare (options.definition supply.stamp name group) = .done after.schema := by
  unfold add at h
  by_cases hname : isIdentifier name = true
  · have hbuild : Definition.build supply.stamp (some name) options.fallback
        (options.construct.getD .identity) options.reader group =
          .ok (options.definition supply.stamp name group) := if_pos hname
    rw [hbuild] at h
    exact schema_of_leave h
  · have hbuild : Definition.build supply.stamp (some name) options.fallback
        (options.construct.getD .identity) options.reader group = .error (.invalidName name) :=
      if_neg hname
    rw [hbuild] at h
    cases congrArg Attempt.fault h

/-- A statement that goes through inserts what it brings. -/
theorem schema_of_declare {d : Declaration} (h : scope.declare d = .done after) :
    after.schema = { scope.schema with
      definitions := Definition.insertAll (d.brings scope.supply) scope.schema.definitions } := by
  cases d with
  | setting name options =>
      rw [declare] at h
      exact Schema.eq_of_declare_done (schema_of_add h)
  | nested name options block =>
      rw [declare] at h
      rcases nest_cases scope name options fun inner => run inner block with
        ⟨fault, hrefused⟩ | ⟨inner, hdone, hadded⟩
      · rw [hrefused] at h
        cases congrArg Attempt.fault h
      · have hbrings : (Declaration.nested name options block).brings scope.supply =
            [options.definition inner.supply.stamp name (some inner.schema)] := by
          rw [Declaration.brings, Schema.compile, Attempt.toExcept_eq_ok.2 hdone]
        rw [hadded] at h
        rw [hbrings]
        exact Schema.eq_of_declare_done (schema_of_add h)
  | inclusion other =>
      rw [declare] at h
      exact Schema.eq_of_incorporate_done (schema_of_leave h)
  | group name script =>
      rw [declare] at h
      rcases takeIn_cases scope fun inner => run inner script with
        ⟨fault, hrefused⟩ | ⟨inner, hdone, htaken⟩
      · rw [hrefused] at h
        cases congrArg Attempt.fault h
      · have hbrings : (Declaration.group name script).brings scope.supply =
            inner.schema.definitions := by
          rw [Declaration.brings, Schema.compile, Attempt.toExcept_eq_ok.2 hdone]
        rw [htaken] at h
        rw [hbrings]
        exact Schema.eq_of_incorporate_done (schema_of_leave h)
  | unregistered name =>
      rw [declare] at h
      cases congrArg Attempt.fault h

theorem Ends.schema_of_frozen {attempt : Attempt Scope} (h : scope.Ends attempt)
    (hz : scope.schema.frozen = true) : attempt.state.schema = scope.schema := by
  cases h with
  | refused fault => rfl
  | added d supply named unfrozen => cases hz.symm.trans unfrozen
  | tookIn other supply allowed =>
      rcases allowed with hopen | hnil
      · cases hz.symm.trans hopen
      · obtain ⟨⟨definitions, frozen⟩, _⟩ := scope
        rw [hnil]
        rfl

theorem schema_run_of_frozen (hz : scope.schema.frozen = true)
    (statements : List Declaration) : (scope.run statements).state.schema = scope.schema := by
  induction statements generalizing scope with
  | nil => rw [run]; rfl
  | cons d rest ih =>
      have hfirst := (ends_declare scope d).schema_of_frozen hz
      rw [run]
      cases hf : (scope.declare d).fault with
      | none =>
          rw [Attempt.andThen_of_fault_eq_none hf]
          exact (ih (hfirst ▸ hz)).trans hfirst
      | some fault =>
          rw [Attempt.andThen_of_fault_eq_some hf]
          exact hfirst

end Scope

namespace Schema

/-- A merge inserts the definitions of the second schema, each joined with that of the first. -/
theorem mergeInto_eq_insertAll {theirs : List Definition}
    (hn : (theirs.map Definition.name).Nodup) (ours : List Definition) :
    mergeInto ours theirs =
      Definition.insertAll (theirs.map fun d => d.joined (Definition.find? d.name ours)) ours := by
  induction theirs generalizing ours with
  | nil => rfl
  | cons d rest ih =>
      rw [List.map_cons, List.nodup_cons] at hn
      rw [mergeInto_cons, ih hn.2, List.map_cons]
      -- The definition that was just inserted has the name of none that is still to come.
      have hrest : rest.map (fun e => e.joined (Definition.find? e.name
            ((d.joined (Definition.find? d.name ours)).insert ours))) =
          rest.map fun e => e.joined (Definition.find? e.name ours) := by
        refine List.map_congr_left fun e he => ?_
        have hne : d.name ≠ e.name := fun hs => hn.1 (hs ▸ List.mem_map_of_mem he)
        rw [Definition.find?_insert, Definition.name_joined, if_neg hne]
      rw [hrest]
      rfl

/-- The definitions were brought into an empty schema one after the other. -/
inductive GrownBy : List Definition → Schema → Prop
  | empty : GrownBy [] .empty
  | declare {ds : List Definition} {s after : Schema} {d : Definition} (grown : GrownBy ds s)
      (done : s.declare d = .done after) : GrownBy (ds ++ [d]) after
  | incorporate {ds : List Definition} {s other after : Schema} (grown : GrownBy ds s)
      (done : s.incorporate other = .done after) : GrownBy (ds ++ other.definitions) after
  | statement {ds : List Definition} {scope after : Scope} {d : Declaration}
      (grown : GrownBy ds scope.schema) (done : scope.declare d = .done after) :
      GrownBy (ds ++ d.brings scope.supply) after.schema
  | merge {ds : List Definition} {s other : Schema} (grown : GrownBy ds s)
      (proper : other.Proper) :
      GrownBy (ds ++ other.definitions.map fun d => d.joined (s.lookup d.name)) (s.merge other)
  | duplicate {ds : List Definition} {s : Schema} (grown : GrownBy ds s) : GrownBy ds s.duplicate
  | freeze {ds : List Definition} {s : Schema} (grown : GrownBy ds s) : GrownBy ds s.freeze

theorem GrownBy.definitions_eq {ds : List Definition} {s : Schema} (h : GrownBy ds s) :
    s.definitions = Definition.insertAll ds [] := by
  induction h with
  | empty => rfl
  | declare _ done ih =>
      rw [eq_of_declare_done done, ih, Definition.insertAll_append]
      rfl
  | incorporate _ done ih => rw [eq_of_incorporate_done done, ih, Definition.insertAll_append]
  | statement _ done ih => rw [Scope.schema_of_declare done, ih, Definition.insertAll_append]
  | merge _ proper ih =>
      rw [definitions_merge, mergeInto_eq_insertAll proper.distinct, Definition.insertAll_append,
        ← ih]
      rfl
  | duplicate _ ih => exact ih
  | freeze _ ih => exact ih

theorem grownBy_of_nodup {ds : List Definition} (hn : (ds.map Definition.name).Nodup) :
    GrownBy ds ⟨ds, false⟩ := by
  induction ds using List.reverseRecOn with
  | nil => exact .empty
  | append_singleton ds d ih =>
      rw [List.map_append, List.map_singleton, List.nodup_append] at hn
      obtain ⟨hds, _, hapart⟩ := hn
      have hnew : d.name ∉ ds.map Definition.name := fun hm =>
        hapart d.name hm d.name (List.mem_singleton_self _) rfl
      refine .declare (ih hds) ?_
      rw [declare_of_unfrozen rfl, Definition.insert_of_not_mem hnew]

theorem grownBy_definitions (hs : s.names.Nodup) : GrownBy s.definitions s := by
  obtain ⟨ds, _ | _⟩ := s
  · exact grownBy_of_nodup hs
  · exact (grownBy_of_nodup hs).freeze

end Schema

/-- The definitions that statements bring in one after the other. A refused one brings none. -/
def Scope.brought (scope : Scope) : List Declaration → List Definition
  | [] => []
  | d :: rest =>
      match (scope.declare d).fault with
      | none => d.brings scope.supply ++ brought (scope.declare d).state rest
      | some _ => brought scope rest

theorem Schema.GrownBy.persist {ds : List Definition} {scope : Scope}
    (h : GrownBy ds scope.schema) (statements : List Declaration) :
    GrownBy (ds ++ scope.brought statements) (scope.persist statements).schema := by
  induction statements generalizing ds scope with
  | nil => exact (List.append_nil ds).symm ▸ h
  | cons d rest ih =>
      have hpersist : scope.persist (d :: rest) = (scope.declare d).state.persist rest := rfl
      rw [Scope.brought, hpersist]
      cases hf : (scope.declare d).fault with
      | none =>
          have hdone : scope.declare d = .done (scope.declare d).state := by
            rw [Attempt.done, ← hf]
          simp only
          rw [← List.append_assoc]
          exact ih (.statement h hdone)
      | some fault =>
          simp only
          rw [(Scope.ends_declare scope d).state_of_refused hf]
          exact ih h

end SettingsTree
