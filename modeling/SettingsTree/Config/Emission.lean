import SettingsTree.Config.Values

/-!
# What a configuration hands to a writer

A writer is given the single settings of a configuration first, in declaration
order and without those that are null, and then its groups, also in declaration
order and in the same form. Documents with sections need this order. A setting
that does not resolve stands in its place as its fault; a writer goes through
the emission in order and stops at the first fault it meets.
-/
namespace SettingsTree

/-- The settings and groups of a configuration in the order in which they are written. -/
inductive Emission where
  | mk (settings : List (String × Except Fault Value)) (groups : List (String × Emission))

namespace Emission

def settings : Emission → List (String × Except Fault Value)
  | mk settings _ => settings

def groups : Emission → List (String × Emission)
  | mk _ groups => groups

/-- The single settings that are written: all but the groups and the null values. -/
def settingsOf (values : List (String × Value)) (groups : List (String × Emission)) :
    List Definition → List (String × Except Fault Value)
  | [] => []
  | d :: rest =>
      if (Table.find? d.name groups).isSome then settingsOf values groups rest
      else
        match Config.valueOf values [] d with
        | .ok v =>
            if v.isNull then settingsOf values groups rest
            else (d.name, .ok v) :: settingsOf values groups rest
        | .error fault => (d.name, .error fault) :: settingsOf values groups rest

def groupsOf (groups : List (String × Emission)) : List Definition → List (String × Emission)
  | [] => []
  | d :: rest =>
      match Table.find? d.name groups with
      | some inner => (d.name, inner) :: groupsOf groups rest
      | none => groupsOf groups rest

end Emission

namespace Config

mutual

def emission : Config → Emission
  | ⟨schema, values, groups, _⟩ =>
      let inner := groupEmissions groups
      .mk (Emission.settingsOf values inner schema.definitions)
        (Emission.groupsOf inner schema.definitions)

def groupEmissions : List (String × Config) → List (String × Emission)
  | [] => []
  | (name, inner) :: rest => (name, emission inner) :: groupEmissions rest

end

end Config

namespace Emission

/-- The settings of an emission, up to the first fault. -/
def resolved : List (String × Except Fault Value) → Except Fault (List (String × Value))
  | [] => .ok []
  | (_, .error fault) :: _ => .error fault
  | (name, .ok v) :: rest => (resolved rest).map ((name, v) :: ·)

mutual

def toValue : Emission → Except Fault Value
  | mk settings groups =>
      match resolved settings with
      | .error fault => .error fault
      | .ok plain => (groupFields groups).map fun inner => Value.ofFields (plain ++ inner)

def groupFields : List (String × Emission) → Except Fault (List (String × Value))
  | [] => .ok []
  | (name, inner) :: rest =>
      match toValue inner with
      | .error fault => .error fault
      | .ok v => (groupFields rest).map ((name, v) :: ·)

end

end Emission

/-- The configuration as a map without the settings that are null. -/
def Config.serialize (c : Config) : Except Fault Value :=
  c.emission.toValue.mapError .unserializable

end SettingsTree
