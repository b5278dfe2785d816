import SettingsTree.Value.Describe

/-!
# What can go wrong

One type lists every cause for which an operation on schemas, configurations
and owners is refused, and `Fault.message` gives each cause its wording.

An operation that may stop half way leaves a state behind even when it fails.
Its outcome is an `Attempt`: the state left behind, and the fault that stopped
it, if any.
-/
namespace SettingsTree

/-- Why a document has no place for a value. -/
inductive Refusal where
  | absent
  | unit
  | keyNotText
deriving DecidableEq

def Refusal.message : Refusal → String
  | absent => "unsupported None value"
  | unit => "unsupported unit type"
  | keyNotText => "map key was not a string"

/-- Why an operation was refused. -/
inductive Fault where
  /-- A file could not be read or written. -/
  | fileAccess
  /-- A value did not have the wanted type. -/
  | wrongType
  /-- A document is not well formed. -/
  | malformedDocument
  /-- A setting could not be resolved while the configuration was turned into a value. -/
  | unserializable (cause : Fault)
  /-- Values have no integers of 128 bits. -/
  | wideInteger
  /-- A value has no place in a document. -/
  | unwritable (refusal : Refusal)
  /-- A setting could not be resolved while the configuration was written as a document. -/
  | unwritableSetting (cause : Fault)
  | invalidName (name : String)
  | unknownSetting (name : String)
  | frozenConfig (name : String)
  /-- A declaration came after the configuration of the owner was built. -/
  | alreadyDefined (name : String)
  | frozenSchema (name : String)
  /-- A group was given something other than a map. -/
  | mapExpected (name : String)
  | notNested (name : String)
  /-- A batch is not a map. -/
  | batchNotMap (given : Value)
  /-- A batch has a key that is not text. -/
  | keyNotText (key : Value)
  /-- A group was declared with a default or a constructor. -/
  | groupOptions (name : String)
  /-- A definition was built without a name. -/
  | missingName
  /-- The constructor of a setting refused its input. -/
  | rejected (setting reason : String)
  | undefinedReader (name : String)
  | unknownGroup (name : String)

namespace Fault

/-- The wording of a fault. Files, typed reads and malformed documents have none
of their own beyond what they concern. -/
def message : Fault → String
  | fileAccess => "I/O: the file is not accessible"
  | wrongType => "Deserialization: the value has another type"
  | malformedDocument => "TOML Deserialization: the document is malformed"
  | unserializable cause => "Serialization: " ++ cause.message
  | wideInteger => "Serialization: i128 is not supported"
  | unwritable refusal => "TOML Serialization: " ++ refusal.message
  | unwritableSetting cause => "TOML Serialization: " ++ cause.message
  | invalidName name => "invalid setting name: " ++ Text.quoted name
  | unknownSetting name => "unknown setting: " ++ name
  | frozenConfig name => "cannot modify setting `" ++ name ++ "`: configuration is frozen"
  | alreadyDefined name =>
      "cannot declare setting `" ++ name ++ "`: configuration is already defined"
  | frozenSchema name => "cannot declare setting `" ++ name ++ "`: schema is frozen"
  | mapExpected name => "invalid value for nested setting `" ++ name ++ "`: expected a map"
  | notNested name => "setting `" ++ name ++ "` is not a nested setting group"
  | batchNotMap given => "invalid argument: expected a map of settings, got " ++ given.describe
  | keyNotText key => "invalid argument: setting names must be strings, got " ++ key.describe
  | groupOptions name =>
      "invalid argument: nested setting `" ++ name ++ "` cannot take a default or constructor"
  | missingName => "invalid argument: setting definition is missing `name`"
  | rejected setting reason => "constructor for setting `" ++ setting ++ "` failed: " ++ reason
  | undefinedReader name => "no reader defined for setting `" ++ name ++ "`"
  | unknownGroup name => "setting group not registered: " ++ name

end Fault

/-- What an operation leaves behind, and the fault that stopped it, if any. -/
structure Attempt (σ : Type) where
  state : σ
  fault : Option Fault

namespace Attempt
variable {σ τ : Type}

def done (state : σ) : Attempt σ := ⟨state, none⟩

def failed (state : σ) (fault : Fault) : Attempt σ := ⟨state, some fault⟩

/-- Goes on with the next operation unless this one was stopped. -/
def andThen (attempt : Attempt σ) (next : σ → Attempt σ) : Attempt σ :=
  match attempt.fault with
  | none => next attempt.state
  | some _ => attempt

/-- The same outcome with its state put into a larger one. -/
def into (attempt : Attempt σ) (place : σ → τ) : Attempt τ :=
  ⟨place attempt.state, attempt.fault⟩

/-- The state if the operation went through, and the fault alone if not. -/
def toExcept (attempt : Attempt σ) : Except Fault σ :=
  match attempt.fault with
  | none => .ok attempt.state
  | some fault => .error fault

@[simp] theorem state_done (state : σ) : (done state).state = state := rfl
@[simp] theorem fault_done (state : σ) : (done state).fault = none := rfl
@[simp] theorem state_failed (state : σ) (fault : Fault) : (failed state fault).state = state := rfl
@[simp] theorem fault_failed (state : σ) (fault : Fault) :
    (failed state fault).fault = some fault := rfl
@[simp] theorem state_into (attempt : Attempt σ) (place : σ → τ) :
    (attempt.into place).state = place attempt.state := rfl
@[simp] theorem fault_into (attempt : Attempt σ) (place : σ → τ) :
    (attempt.into place).fault = attempt.fault := rfl

theorem andThen_of_fault_eq_none {attempt : Attempt σ} (passed : attempt.fault = none)
    (next : σ → Attempt σ) : attempt.andThen next = next attempt.state := by
  simp [andThen, passed]

theorem eq_done {attempt : Attempt σ} (passed : attempt.fault = none) :
    attempt = done attempt.state :=
  congrArg (mk attempt.state) passed

theorem andThen_done (attempt : Attempt σ) : attempt.andThen done = attempt := by
  obtain ⟨state, fault⟩ := attempt
  cases fault <;> rfl

theorem andThen_of_fault_eq_some {attempt : Attempt σ} {fault : Fault}
    (stopped : attempt.fault = some fault) (next : σ → Attempt σ) :
    attempt.andThen next = attempt := by
  simp [andThen, stopped]

theorem andThen_congr {attempt : Attempt σ} {next next' : σ → Attempt σ}
    (h : next attempt.state = next' attempt.state) :
    attempt.andThen next = attempt.andThen next' := by
  unfold andThen
  rw [h]

theorem andThen_assoc (attempt : Attempt σ) (next later : σ → Attempt σ) :
    (attempt.andThen next).andThen later =
      attempt.andThen fun after => (next after).andThen later := by
  obtain ⟨state, fault⟩ := attempt
  cases fault <;> rfl

theorem toExcept_eq_ok {attempt : Attempt σ} {state : σ} :
    attempt.toExcept = .ok state ↔ attempt = done state := by
  obtain ⟨after, fault⟩ := attempt
  cases fault <;> simp [toExcept, done]

theorem toExcept_eq_error {attempt : Attempt σ} {fault : Fault} :
    attempt.toExcept = .error fault ↔ attempt.fault = some fault := by
  obtain ⟨after, cause⟩ := attempt
  cases cause <;> simp [toExcept]

theorem toExcept_into (attempt : Attempt σ) (place : σ → τ) :
    (attempt.into place).toExcept = attempt.toExcept.map place := by
  obtain ⟨state, fault⟩ := attempt
  cases fault <;> rfl

theorem into_andThen (attempt : Attempt σ) (place : σ → τ) {next : σ → Attempt σ}
    {next' : τ → Attempt τ} (h : next' (place attempt.state) = (next attempt.state).into place) :
    (attempt.into place).andThen next' = (attempt.andThen next).into place := by
  unfold andThen
  simp only [fault_into, state_into, h]
  cases attempt.fault <;> rfl

end Attempt
end SettingsTree
