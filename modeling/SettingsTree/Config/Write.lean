import SettingsTree.Config.Basic

/-!
# Writing to configurations

A single setting is written by running its constructor over the raw value and
storing what it returns. A group is written by a map, entry by entry in the order
of the keys; it stops at the first entry that is refused, and what was written
before stays. A frozen configuration refuses every write.

The raw value decides how deep a write goes, so writing recurses on it.
-/
namespace SettingsTree.Config

/-- What a write under a name would go to. -/
inductive Target where
  | setting (d : Definition)
  | group (inner : Config)

/-- Finds what a write under a name goes to. The configuration must not be frozen,
the name must be declared, and a group must be there. -/
def target (c : Config) (name : String) : Except Fault Target :=
  if c.frozen then .error (.frozenConfig name)
  else
    match c.definition name with
    | .error fault => .error fault
    | .ok d =>
        if d.isGroup then
          match Table.find? name c.groups with
          | some inner => .ok (.group inner)
          | none => .error (.notNested name)
        else .ok (.setting d)

/-- Runs the constructor of a setting over a raw value and stores the result. -/
def assign (c : Config) (d : Definition) (raw : Value) : Attempt Config :=
  match d.resolve (some raw) with
  | .ok value => .done (c.withValue d.name value)
  | .error fault => .failed c fault

/-- The first key of a batch that is not text. -/
def strayKey? : List (Value × Value) → Option Value
  | [] => none
  | (.str _, _) :: rest => strayKey? rest
  | (key, _) :: _ => some key

mutual

/-- Writes a raw value under a name. -/
def set (c : Config) (name : String) : Value → Attempt Config
  | .map entries =>
      match c.target name with
      | .error fault => .failed c fault
      | .ok (.setting d) => c.assign d (.map entries)
      | .ok (.group inner) =>
          match strayKey? entries with
          | some key => .failed c (.keyNotText key)
          | none => (setAll inner entries).into (c.withGroup name)
  | raw =>
      match c.target name with
      | .error fault => .failed c fault
      | .ok (.setting d) => c.assign d raw
      | .ok (.group _) => .failed c (.mapExpected name)

/-- Writes the entries of a batch one after the other, up to the first that is refused. -/
def setAll (c : Config) : List (Value × Value) → Attempt Config
  | [] => .done c
  | (.str name, raw) :: rest => (set c name raw).andThen fun after => setAll after rest
  | (key, _) :: _ => .failed c (.keyNotText key)

end

/-- Writes a batch. It must be a map, and all its keys must be text before
anything is written. -/
def update (c : Config) : Value → Attempt Config
  | .map entries =>
      match strayKey? entries with
      | some key => .failed c (.keyNotText key)
      | none => c.setAll entries
  | given => .failed c (.batchNotMap given)

/-- Changes the group at the end of a walk, and leaves everything else alone. -/
def within (c : Config) (walk : List String) (edit : Config → Attempt Config) : Attempt Config :=
  match walk with
  | [] => edit c
  | name :: rest =>
      match c.nested name with
      | .error fault => .failed c fault
      | .ok inner => (inner.within rest edit).into (c.withGroup name)

def setAt (c : Config) (path : Path) (raw : Value) : Attempt Config :=
  c.within path.parents fun inner => inner.set path.leaf raw

/-- Writes raw values at dotted paths one after the other, up to the first that is refused. -/
def setEach (c : Config) : List (Path × Value) → Attempt Config
  | [] => .done c
  | (path, raw) :: rest => (c.setAt path raw).andThen fun after => after.setEach rest

end SettingsTree.Config
