import SettingsTree.Constructor
import SettingsTree.Value.Order
import SettingsTree.Value.Describe

/-!
# Ready-made constructors

Constructors for common needs: filling in a value, refusing what is missing or
not on a list, and small changes to text and numbers.
-/
namespace SettingsTree.Constructor

/-- Keeps its input like the identity, but counts as a constructor of its own. -/
def keep : Constructor where
  run input := .ok (input.getD Value.null)

/-- Keeps its input, and takes the given value for nothing. -/
def orElse (value : Value) : Constructor where
  run input := .ok (input.getD value)

/-- Keeps its input, and takes the given value for nothing and for null values. -/
def nonNull (value : Value) : Constructor where
  run
    | none => .ok value
    | some given => .ok (if given.isNull then value else given)

def fail (reason : String) : Constructor where
  run _ := .error reason

def require : Constructor where
  run
    | none => .error "value required"
    | some given => .ok given

/-- Puts its input into a sequence of one. -/
def wrap : Constructor where
  run input := .ok (.seq [input.getD Value.null])

/-- Tells whether there was an input, and which. -/
def boxed : Constructor where
  run input :=
    .ok (.ofFields [("given", .bool input.isSome), ("raw", input.getD Value.null)])

/-- Keeps an input that equals one of the given values. -/
def oneOf (values : List Value) : Constructor where
  run input :=
    match input with
    | some given =>
        if values.any (Value.same given) then .ok given
        else .error ("unsupported value " ++ Value.describe? input)
    | none => .error ("unsupported value " ++ Value.describe? input)

/-- Puts the name of a connection scheme before a text. -/
def dataSource : Constructor where
  run
    | some (.str text) => .ok (.str ("jdbc:" ++ text))
    | _ => .error "dsn must be a string"

/-- Like `dataSource`, but shows the input it refuses. -/
def dataSourceShowing : Constructor where
  run
    | some (.str text) => .ok (.str ("jdbc:" ++ text))
    | input => .error ("dsn must be a string, got " ++ Value.describe? input)

/-- Turns the lower-case ASCII letters of a text into upper case. -/
def upper : Constructor where
  run
    | some (.str text) => .ok (.str (text.map Char.toUpper))
    | _ => .error "expected a string"

def increment : Constructor where
  run
    | some (.int ⟨.i32, n, _⟩) =>
        match SizedInt.ofInt? .i32 (n + 1) with
        | some next => .ok (.int next)
        | none => .error "overflow"
    | _ => .error "expected an i32"

/-- Keeps the name of a level of detail that log records can have. -/
def logLevel : Constructor where
  run input :=
    match input with
    | some (.str text) =>
        if text = "debug" ∨ text = "info" ∨ text = "warn" then .ok (.str text)
        else .error ("unsupported level " ++ Value.describe? input)
    | _ => .error ("unsupported level " ++ Value.describe? input)

end SettingsTree.Constructor
