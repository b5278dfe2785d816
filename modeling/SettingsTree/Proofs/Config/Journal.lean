import SettingsTree.Proofs.Config.Calls

/-!
# Journals of assignments

The journal of a call lists the assignments that went through in it, in their order:
the path of the setting from where the call was made, the definition that was in
force, and the raw value that was given. A call on a stage has a journal too, of the
raw values that it staged. Nothing here looks at what is stored.
-/
namespace SettingsTree

/-- One assignment: which setting, under which definition, and the raw value. -/
structure Entry where
  path : Path
  stamp : Stamp
  raw : Value

/-- The entry as seen from outside the group it was made in. -/
def Entry.under (name : String) (e : Entry) : Entry :=
  { e with path := ⟨name :: e.path.parents, e.path.leaf⟩ }

/-- The journal of two calls, of which the second is made only if the first goes through. -/
def Attempt.followed {σ : Type} (a : Attempt σ) (first : List Entry) (next : σ → List Entry) :
    List Entry :=
  first ++
    match a.fault with
    | none => next a.state
    | some _ => []

def Definition.entry (d : Definition) (raw : Value) : Entry :=
  ⟨⟨[], d.name⟩, d.stamp, raw⟩

namespace Config

/-- The journal of an assignment, which is empty if the constructor refuses the value. -/
def assigned (d : Definition) (raw : Value) : List Entry :=
  match d.resolve (some raw) with
  | .ok _ => [d.entry raw]
  | .error _ => []

mutual

/-- The journal of `Config.set`. -/
def written (c : Config) (name : String) : Value → List Entry
  | .map entries =>
      match c.target name with
      | .error _ => []
      | .ok (.setting d) => assigned d (.map entries)
      | .ok (.group inner) =>
          match strayKey? entries with
          | some _ => []
          | none => (writtenAll inner entries).map (Entry.under name)
  | raw =>
      match c.target name with
      | .error _ => []
      | .ok (.setting d) => assigned d raw
      | .ok (.group _) => []

/-- The journal of a batch ends where the batch was stopped. -/
def writtenAll (c : Config) : List (Value × Value) → List Entry
  | [] => []
  | (.str name, raw) :: rest =>
      (c.set name raw).followed (written c name raw) fun after => writtenAll after rest
  | (_, _) :: _ => []

end

/-- The journal of `Config.update`. -/
def writtenBatch (c : Config) : Value → List Entry
  | .map entries =>
      match strayKey? entries with
      | some _ => []
      | none => c.writtenAll entries
  | _ => []

def writtenWithin (c : Config) (walk : List String) (journal : Config → List Entry) :
    List Entry :=
  match walk with
  | [] => journal c
  | name :: rest =>
      match c.nested name with
      | .error _ => []
      | .ok inner => (inner.writtenWithin rest journal).map (Entry.under name)

def Action.journal (c : Config) : Action → List Entry
  | set name raw => c.written name raw
  | setPath path raw =>
      c.writtenWithin (Path.parse path).parents fun inner =>
        inner.written (Path.parse path).leaf raw
  | setAs name shape raw =>
      match raw.readAs shape with
      | .ok value => c.written name value
      | .error _ => []
  | setWide _ _ => []
  | setConfig name other =>
      match other.serialize with
      | .ok value => c.written name value
      | .error _ => []
  | update batch => c.writtenBatch batch
  | document text =>
      match Toml.read text with
      | some batch => c.writtenBatch batch
      | none => []
  | finalize => []

def Edit.journal (e : Edit) (c : Config) : List Entry :=
  c.writtenWithin e.walk fun inner => e.action.journal inner

/-- The journal of edits one after the other, up to the first that is refused. -/
def journalAll (c : Config) : List Edit → List Entry
  | [] => []
  | e :: rest =>
      (e.apply c).followed (e.journal c) fun after => after.journalAll rest

end Config

namespace Stage

mutual

/-- The journal of `Stage.set`. -/
def kept (s : Stage) (name : String) : Value → List Entry
  | .map entries =>
      match s.target.definition name with
      | .error _ => []
      | .ok d =>
          if d.isGroup then
            match s.scope name with
            | .error _ => []
            | .ok inner =>
                match Config.strayKey? entries with
                | some _ => []
                | none => (keptAll inner entries).map (Entry.under name)
          else [d.entry (.map entries)]
  | raw =>
      match s.target.definition name with
      | .error _ => []
      | .ok d => if d.isGroup then [] else [d.entry raw]

def keptAll (s : Stage) : List (Value × Value) → List Entry
  | [] => []
  | (.str name, raw) :: rest =>
      (s.set name raw).followed (kept s name raw) fun after => keptAll after rest
  | (_, _) :: _ => []

end

/-- The journal of `Stage.update`. -/
def keptBatch (s : Stage) : Value → List Entry
  | .map entries =>
      match Config.strayKey? entries with
      | some _ => []
      | none => s.keptAll entries
  | _ => []

def keptWithin (s : Stage) (walk : List String) (journal : Stage → List Entry) : List Entry :=
  match walk with
  | [] => journal s
  | name :: rest =>
      match s.scope name with
      | .error _ => []
      | .ok inner => (inner.keptWithin rest journal).map (Entry.under name)

end Stage

def Staging.journal (g : Staging) (s : Stage) : List Entry :=
  s.keptWithin g.walk fun inner =>
    match g.request with
    | .set name raw => inner.kept name raw
    | .update batch => inner.keptBatch batch
    | .visit => []

/-- The journal of requests on a stage, the later ones after refused ones too. -/
def Stage.journal (s : Stage) : List Staging → List Entry
  | [] => []
  | g :: rest => g.journal s ++ ((g.stage s).state).journal rest

end SettingsTree
