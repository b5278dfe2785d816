import SettingsTree.Config.Copy
import SettingsTree.Config.Values
import SettingsTree.Config.Write
import SettingsTree.Schema.Script

/-!
# Owners and their instances

An owner holds a schema, on which settings are declared up front, and the
configuration that is built from it the first time it is asked for. From then on
declarations are refused. An owner derived from another one starts with the
schema of its parent and a duplicate of the configuration the parent has at that
moment. It shares the schema until a declaration of its own goes through.

The readers of an owner are names under which a setting can be read without
going through the configuration. Every declaration adds the names that the schema
marks as readers at that time; a name never leaves the list.

Each owner has a supply of stamps of its own, so what one owner declares does not
depend on what another one does.
-/
namespace SettingsTree

/-- Where the schema of an owner comes from. -/
inductive Origin where
  /-- The owner was not derived from another one. -/
  | own
  /-- The owner still uses the schema of its parent. -/
  | shared
  /-- A declaration on the owner has replaced the schema of its parent. -/
  | forked
deriving DecidableEq, Repr

/-- A schema with the configuration built from it. -/
structure Owner where
  name : String
  schema : Schema
  origin : Origin
  /-- The duplicate of the parent's configuration, carried over to every new schema. -/
  inherited : Option Config
  /-- The configuration, once it is built. -/
  built : Option Config
  /-- Names that can be read directly, in ascending order. -/
  readers : List String
  supply : Supply

/-- An object with a configuration and readers of its own, made from an owner. -/
structure Instance where
  owner : String
  config : Config
  readers : List String

/-- Adds a name to names in ascending order. -/
def addReader (name : String) : List String → List String
  | [] => [name]
  | other :: rest =>
      if name = other then other :: rest
      else if name < other then name :: other :: rest
      else other :: addReader name rest

/-- Reads the value under a name that is one of the readers. -/
def readThrough (readers : List String) (c : Config) (name : String) : Except Fault Value :=
  if name ∈ readers then c.value name else .error (.undefinedReader name)

/-- Runs a change on a configuration and freezes it if the change goes through. -/
def Config.configure (c : Config) (edit : Config → Attempt Config) : Attempt Config :=
  (edit c).andThen fun after => .done after.finalize

namespace Owner

def new (name : String) (author : Nat) : Owner where
  name
  schema := .empty
  origin := .own
  inherited := none
  built := none
  readers := []
  supply := { author }

def isConfigured (o : Owner) : Bool :=
  o.built.isSome

/-- Whether the owner was derived and still uses the schema of its parent. -/
def sharesParentSchema (o : Owner) : Bool :=
  o.origin = .shared

/-- The configuration that the owner has, or would have if it were built now. -/
def config (o : Owner) : Config :=
  match o.built, o.inherited with
  | some c, _ => c
  | none, some c => c.rebind o.schema
  | none, none => .fresh o.schema

def build (o : Owner) : Owner :=
  { o with built := some o.config }

/-- The configuration that a derived owner takes a duplicate of. -/
def current? (o : Owner) : Option Config :=
  o.built.or o.inherited

/-- A child that shares the schema and the readers, and holds an open duplicate of
the configuration if there is one. -/
def derive (parent : Owner) (name : String) (author : Nat) : Owner where
  name
  schema := parent.schema
  origin := .shared
  inherited := parent.current?.map Config.duplicate
  built := none
  readers := parent.readers
  supply := { author }

/-- Adds the names that a schema marks as readers. -/
def collectReaders (readers : List String) (s : Schema) : List String :=
  (s.definitions.filter Definition.reader).foldl (fun acc d => addReader d.name acc) readers

/-- Runs a script on a copy of the schema, which takes the place of the schema if the
script goes through. The label stands for the script in refusals. -/
def compile (o : Owner) (label : String) (script : Scope → Attempt Scope) : Attempt Owner :=
  if o.isConfigured then .failed o (.alreadyDefined label)
  else if o.schema.frozen then .failed o (.frozenSchema label)
  else
    match (script ⟨o.schema, o.supply⟩).toExcept with
    | .error fault => .failed o fault
    | .ok scope =>
        .done
          { o with
            schema := scope.schema
            supply := scope.supply
            origin := if o.origin = .own then .own else .forked
            inherited := o.inherited.map (Config.rebind · scope.schema)
            readers := collectReaders o.readers scope.schema }

def declare (o : Owner) (declaration : Declaration) : Attempt Owner :=
  o.compile declaration.label fun scope => scope.declare declaration

/-- Changes the configuration, which is built if need be. -/
def edit (o : Owner) (change : Config → Attempt Config) : Attempt Owner :=
  (change o.config).into fun c => { o with built := some c }

def configure (o : Owner) (change : Config → Attempt Config) : Attempt Owner :=
  o.edit fun c => c.configure change

def finalize (o : Owner) : Owner :=
  { o with built := some o.config.finalize }

/-- Reads a setting by its name alone. The configuration is built for it, whether
the name is a reader or not. -/
def read (o : Owner) (name : String) : Except Fault Value × Owner :=
  (readThrough o.readers o.build.config name, o.build)

/-- Makes an instance with an open duplicate of the configuration, which is built for it. -/
def spawn (o : Owner) : Instance × Owner :=
  (⟨o.name, o.build.config.duplicate, o.readers⟩, o.build)

@[simp] theorem config_build (o : Owner) : o.build.config = o.config := by
  simp [build, config]

end Owner

namespace Instance

def edit (i : Instance) (change : Config → Attempt Config) : Attempt Instance :=
  (change i.config).into fun c => { i with config := c }

def configure (i : Instance) (change : Config → Attempt Config) : Attempt Instance :=
  i.edit fun c => c.configure change

def finalize (i : Instance) : Instance :=
  { i with config := i.config.finalize }

def read (i : Instance) (name : String) : Except Fault Value :=
  readThrough i.readers i.config name

end Instance
end SettingsTree
