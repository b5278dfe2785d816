import SettingsTree.Config.Copy
import SettingsTree.Config.Values
import SettingsTree.Config.Write

/-!
# Staged batches of writes

A stage collects raw values to be written to a configuration, its target, which
it never changes. It shows each setting as it would read afterwards. Committing
it gives a new configuration: an open duplicate of the target with every staged
value written, the groups before the settings around them. A name that is not
declared, and a group given something other than a map, are refused when they are
staged; a constructor can refuse its value only when it is read or committed.
-/
namespace SettingsTree

/-- Values waiting to be written to a configuration. -/
structure Stage where
  target : Config
  /-- Raw values under the names of single settings. -/
  writes : List (String × Value)
  /-- The stages of groups that were entered. -/
  scopes : List (String × Stage)

namespace Stage

def start (target : Config) : Stage :=
  ⟨target, [], []⟩

def withScope (s : Stage) (name : String) (inner : Stage) : Stage :=
  { s with scopes := Table.insert name inner s.scopes }

/-- The stage for a group: the one that was entered before, or a new one. -/
def scope (s : Stage) (name : String) : Except Fault Stage :=
  match s.target.nested name with
  | .error fault => .error fault
  | .ok inner =>
      match Table.find? name s.scopes with
      | some entered => .ok entered
      | none => .ok (start inner)

mutual

/-- Whether nothing is waiting, here or in a group. -/
def isEmpty : Stage → Bool
  | ⟨_, writes, scopes⟩ => writes.isEmpty && areEmpty scopes

def areEmpty : List (String × Stage) → Bool
  | [] => true
  | (_, inner) :: rest => isEmpty inner && areEmpty rest

end

mutual

def set (s : Stage) (name : String) : Value → Attempt Stage
  | .map entries =>
      match s.target.definition name with
      | .error fault => .failed s fault
      | .ok d =>
          if d.isGroup then
            match s.scope name with
            | .error fault => .failed s fault
            | .ok inner =>
                match Config.strayKey? entries with
                | some key => .failed (s.withScope name inner) (.keyNotText key)
                | none => (setAll inner entries).into (s.withScope name)
          else .done { s with writes := Table.insert name (.map entries) s.writes }
  | raw =>
      match s.target.definition name with
      | .error fault => .failed s fault
      | .ok d =>
          if d.isGroup then .failed s (.mapExpected name)
          else .done { s with writes := Table.insert name raw s.writes }

/-- Stages the entries of a batch, up to the first that is refused. -/
def setAll (s : Stage) : List (Value × Value) → Attempt Stage
  | [] => .done s
  | (.str name, raw) :: rest => (set s name raw).andThen fun after => setAll after rest
  | (key, _) :: _ => .failed s (.keyNotText key)

end

/-- Stages a batch. It must be a map, and all its keys must be text before
anything is staged. -/
def update (s : Stage) : Value → Attempt Stage
  | .map entries =>
      match Config.strayKey? entries with
      | some key => .failed s (.keyNotText key)
      | none => s.setAll entries
  | given => .failed s (.batchNotMap given)

/-- Changes the stage at the end of a walk. Every group on the way counts as entered. -/
def within (s : Stage) (walk : List String) (edit : Stage → Attempt Stage) : Attempt Stage :=
  match walk with
  | [] => edit s
  | name :: rest =>
      match s.scope name with
      | .error fault => .failed s fault
      | .ok inner => (inner.within rest edit).into (s.withScope name)

/-- The stage at the end of a walk. -/
def descend (s : Stage) : List String → Except Fault Stage
  | [] => .ok s
  | name :: rest =>
      match s.scope name with
      | .error fault => .error fault
      | .ok inner => inner.descend rest

/-- How a name reads once the stage is committed, given how its entered groups do. -/
def valueOf (target : Config) (writes : List (String × Value))
    (scopes : List (String × Except Fault Value)) (name : String) : Except Fault Value :=
  match Table.find? name scopes, Table.find? name writes with
  | some inner, _ => inner
  | none, some raw =>
      match target.definition name with
      | .error fault => .error fault
      | .ok d => d.resolve (some raw)
  | none, none => target.value name

/-- How several names read, up to the first that fails. -/
def valuesOf (target : Config) (writes : List (String × Value))
    (scopes : List (String × Except Fault Value)) :
    List String → Except Fault (List (String × Value))
  | [] => .ok []
  | name :: rest =>
      match valueOf target writes scopes name with
      | .error fault => .error fault
      | .ok v => (valuesOf target writes scopes rest).map ((name, v) :: ·)

mutual

/-- The whole target as it reads once the stage is committed. -/
def toValue : Stage → Except Fault Value
  | ⟨target, writes, scopes⟩ =>
      (valuesOf target writes (scopeValues scopes) target.schema.names).map Value.ofFields

def scopeValues : List (String × Stage) → List (String × Except Fault Value)
  | [] => []
  | (name, inner) :: rest => (name, toValue inner) :: scopeValues rest

end

/-- How a name reads once the stage is committed. -/
def get (s : Stage) (name : String) : Except Fault Value :=
  valueOf s.target s.writes (scopeValues s.scopes) name

/-- Writes raw values under names, up to the first that is refused. -/
def writeAll (c : Config) : List (String × Value) → Except Fault Config
  | [] => .ok c
  | (name, raw) :: rest =>
      match (c.set name raw).toExcept with
      | .error fault => .error fault
      | .ok after => writeAll after rest

mutual

/-- A duplicate of the target with everything staged written to it. -/
def commit : Stage → Except Fault Config
  | ⟨target, writes, scopes⟩ =>
      match commitScopes target.duplicate scopes with
      | .error fault => .error fault
      | .ok c => writeAll c writes

/-- Puts the committed groups into a configuration. -/
def commitScopes (c : Config) : List (String × Stage) → Except Fault Config
  | [] => .ok c
  | (name, inner) :: rest =>
      match commit inner with
      | .error fault => .error fault
      | .ok committed =>
          match c.nested name with
          | .error fault => .error fault
          | .ok _ => commitScopes (c.withGroup name committed) rest

end

end Stage
end SettingsTree
