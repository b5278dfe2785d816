import SettingsTree.Config.Typed
import SettingsTree.Directory
import SettingsTree.Stage

/-!
# Sequences of calls on configurations

An edit is a call that changes a configuration in place, at the end of a walk
through its groups. A copy makes another configuration out of it: an exact one, a
duplicate, one bound to another schema, or what a staged batch commits. A history
is a list of edits and copies, each on the configuration that the one before it
left. Refused calls are part of it: an edit may have changed something before it
was refused, and a copy that fails leaves the configuration in use.
-/
namespace SettingsTree

/-- A call on a stage, or the same call directly on a configuration. -/
inductive Request where
  | set (name : String) (raw : Value)
  | update (batch : Value)
  /-- Enters the scope and does nothing in it. -/
  | visit

/-- A request at the end of a walk through groups. -/
structure Staging where
  walk : List String
  request : Request

namespace Staging

/-- The request on the stage that the walk leads to. -/
def stage (g : Staging) (s : Stage) : Attempt Stage :=
  s.within g.walk fun inner =>
    match g.request with
    | .set name raw => inner.set name raw
    | .update batch => inner.update batch
    | .visit => .done inner

/-- The same request on the group that the walk leads to. -/
def direct (g : Staging) (c : Config) : Attempt Config :=
  c.within g.walk fun inner =>
    match g.request with
    | .set name raw => inner.set name raw
    | .update batch => inner.update batch
    | .visit => .done inner

end Staging

def Stage.after (s : Stage) (requests : List Staging) : Stage :=
  requests.foldl (fun s g => (g.stage s).state) s

/-- What each request on a stage answers, the later ones after refused ones too. -/
def Stage.answers (s : Stage) : List Staging → List (Option Fault)
  | [] => []
  | g :: rest => (g.stage s).fault :: ((g.stage s).state).answers rest

/-- The configuration that the same requests leave behind when they are made directly. -/
def Config.requested (c : Config) (requests : List Staging) : Config :=
  requests.foldl (fun c g => (g.direct c).state) c

/-- What each request answers when it is made directly. -/
def Config.answers (c : Config) : List Staging → List (Option Fault)
  | [] => []
  | g :: rest => (g.direct c).fault :: ((g.direct c).state).answers rest

namespace Config

/-- A call that changes a configuration in place. -/
inductive Action where
  | set (name : String) (raw : Value)
  | setPath (path : String) (raw : Value)
  | setAs (name : String) (shape : Shape) (raw : Value)
  | setWide (name : String) (n : Int)
  | setConfig (name : String) (other : Config)
  | update (batch : Value)
  | document (text : String)
  | finalize

def Action.apply (c : Config) : Action → Attempt Config
  | set name raw => c.set name raw
  | setPath path raw => c.setAt (Path.parse path) raw
  | setAs name shape raw => c.setAs name shape raw
  | setWide name n => c.setWide name n
  | setConfig name other => c.setConfig name other
  | update batch => c.update batch
  | document text => c.updateFromToml text
  | finalize => .done c.finalize

structure Edit where
  walk : List String
  action : Action

def Edit.apply (e : Edit) (c : Config) : Attempt Config :=
  c.within e.walk fun inner => e.action.apply inner

def editAll (c : Config) : List Edit → Attempt Config
  | [] => .done c
  | e :: rest => (e.apply c).andThen fun after => after.editAll rest

/-- How one configuration is made from another. -/
inductive Making where
  | exact
  | duplicate
  | rebind (s : Schema)
  | commit (requests : List Staging)

def Making.apply (c : Config) : Making → Except Fault Config
  | exact => .ok c
  | duplicate => .ok c.duplicate
  | rebind s => .ok (c.rebind s)
  | commit requests => ((Stage.start c).after requests).commit

/-- A configuration made from the group at the end of a walk. -/
structure Copy where
  walk : List String
  making : Making

def Copy.apply (k : Copy) (c : Config) : Except Fault Config :=
  match c.descend k.walk with
  | .error fault => .error fault
  | .ok inner => k.making.apply inner

inductive Step where
  | edit (e : Edit)
  | copy (k : Copy)

def Step.next (c : Config) : Step → Config
  | edit e => (e.apply c).state
  | copy k =>
      match k.apply c with
      | .ok made => made
      | .error _ => c

def after (c : Config) (history : List Step) : Config :=
  history.foldl Step.next c

@[simp] theorem after_nil (c : Config) : c.after [] = c := rfl

@[simp] theorem after_cons (c : Config) (step : Step) (rest : List Step) :
    c.after (step :: rest) = (step.next c).after rest := rfl

end Config
end SettingsTree
