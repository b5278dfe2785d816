import SettingsTree.Schema.Basic

/-!
# Declaration scripts

A script is a list of statements. A statement declares a setting or a group,
takes in the definitions of another schema, or takes in a registered script: the
statement holds the script registered under the name it gives, so that a script
cannot take in itself. A script stops at the first statement that does not go
through, and leaves what there is by then.

The block of a group and a registered script are run over a schema of their own,
which is complete before the scope around it changes.
-/
namespace SettingsTree

/-- What a statement may say about a setting besides its name. -/
structure Options where
  fallback : Option Value := none
  construct : Option Constructor := none
  reader : Bool := false

inductive Declaration where
  | setting (name : String) (options : Options)
  | nested (name : String) (options : Options) (block : List Declaration)
  /-- Takes in every definition of a schema. -/
  | inclusion (other : Schema)
  /-- Takes in what the script registered under a name declares. -/
  | group (name : String) (script : List Declaration)
  /-- Asks for a script under a name that is not registered. -/
  | unregistered (name : String)

/-- The name by which an owner refers to a statement it refuses. -/
def Declaration.label : Declaration → String
  | .setting name _ | .nested name _ _ | .group name _ | .unregistered name => name
  | .inclusion other => other.names.head?.getD ""

/-- A schema under construction, with the source of its stamps. -/
structure Scope where
  schema : Schema
  supply : Supply

namespace Scope

/-- An empty schema that takes its stamps from the given supply. -/
def start (supply : Supply) : Scope :=
  ⟨.empty, supply⟩

/-- The scope with what an operation left of its schema. The supply moves on to the given one only
if the operation went through. -/
def leave (scope : Scope) (attempt : Attempt Schema) (supply : Supply) : Attempt Scope :=
  attempt.into fun schema => ⟨schema, if attempt.fault.isNone then supply else scope.supply⟩

@[simp] theorem schema_leave (scope : Scope) (attempt : Attempt Schema) (supply : Supply) :
    (scope.leave attempt supply).state.schema = attempt.state := rfl
@[simp] theorem leave_done (scope : Scope) (s : Schema) (supply : Supply) :
    scope.leave (.done s) supply = .done ⟨s, supply⟩ := rfl

/-- Declares a setting or a group under the next stamp of a supply. -/
def add (scope : Scope) (supply : Supply) (name : String) (options : Options)
    (group : Option Schema) : Attempt Scope :=
  match Definition.build supply.stamp (some name) options.fallback
      (options.construct.getD .identity) options.reader group with
  | .error fault => .failed scope fault
  | .ok definition => scope.leave (scope.schema.declare definition) supply.advance

/-- Takes in another schema, after which stamps come from the given supply. -/
def incorporate (scope : Scope) (supply : Supply) (other : Schema) : Attempt Scope :=
  scope.leave (scope.schema.incorporate other) supply

/-- Declares a group with what a block makes of an empty scope. -/
def nest (scope : Scope) (name : String) (options : Options) (block : Scope → Attempt Scope) :
    Attempt Scope :=
  if !isIdentifier name then .failed scope (.invalidName name)
  else if options.fallback.isSome || options.construct.isSome then
    .failed scope (.groupOptions name)
  else
    match (block (start scope.supply)).toExcept with
    | .error fault => .failed scope fault
    | .ok inner => scope.add inner.supply name options (some inner.schema)

/-- Takes in what a registered script makes of an empty scope. -/
def takeIn (scope : Scope) (script : Scope → Attempt Scope) : Attempt Scope :=
  match (script (start scope.supply)).toExcept with
  | .error fault => .failed scope fault
  | .ok inner => scope.incorporate inner.supply inner.schema

mutual

def declare (scope : Scope) : Declaration → Attempt Scope
  | .setting name options => scope.add scope.supply name options none
  | .nested name options block => scope.nest name options fun inner => run inner block
  | .inclusion other => scope.incorporate scope.supply other
  | .group _ script => scope.takeIn fun inner => run inner script
  | .unregistered name => .failed scope (.unknownGroup name)

/-- Runs statements up to the first that does not go through. -/
def run (scope : Scope) : List Declaration → Attempt Scope
  | [] => .done scope
  | declaration :: rest => (declare scope declaration).andThen fun after => run after rest

end

end Scope

/-- The schema that a script declares, and the supply it leaves. -/
def Schema.compile (script : List Declaration) (supply : Supply) : Except Fault Scope :=
  ((Scope.start supply).run script).toExcept

end SettingsTree
