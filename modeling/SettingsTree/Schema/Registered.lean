import SettingsTree.Constructor.Catalogue
import SettingsTree.Schema.Script

/-!
# Registered scripts

The scripts that schemas take in by name. A script that takes in another one
holds it, so the scripts are listed after those they use. Two of them are meant
to be refused half way: one has a name that is none, the other asks for a script
that nobody registered.
-/
namespace SettingsTree.Registered

structure Entry where
  name : String
  script : List Declaration

def simple (name : String) (fallback : Value) : Declaration :=
  .setting name { fallback := some fallback }

/-- A small number as a signed integer of 32 bits. -/
def number (n : UInt8) : Value :=
  .int ⟨.i32, n.toNat, by
    have : n.toNat < 256 := n.toNat_lt
    have : Int.pow 2 31 = 2147483648 := rfl
    simp [IntKind.least, IntKind.greatest, IntKind.isSigned, IntKind.width]
    omega⟩

def databasePort : Value :=
  .int ⟨.i32, 5432, by decide⟩

def database : Entry where
  name := "database"
  script :=
    [.nested "database" {} [simple "host" (.str "localhost"), simple "port" databasePort]]

def logging : Entry where
  name := "logging"
  script :=
    [.setting "level"
      { fallback := some (.str "info"), construct := some .logLevel, reader := true },
     simple "json" (.bool false)]

def stack : Entry where
  name := "stack"
  script :=
    [.group database.name database.script,
     .nested "log" {} [.group logging.name logging.script],
     .setting "name" { fallback := some (.str "stack"), reader := true }]

def empty : Entry where
  name := "empty"
  script := []

def broken : Entry where
  name := "broken"
  script := [simple "fine" (number 1), .setting "9bad" {}]

def dangling : Entry where
  name := "dangling"
  script := [simple "fine" (number 1), .unregistered "nowhere"]

def mapped : Entry where
  name := "mapped"
  script :=
    [simple "extra" (.ofFields
      [("a", .ofFields [("x", .float (.ofBits .f64 0x3ff8000000000000))]),
       ("b", .int ⟨.u8, 2, by decide⟩),
       ("c", .seq [.char 'q'])])]

def all : List Entry :=
  [database, logging, stack, empty, broken, dangling, mapped]

def find? (name : String) : Option Entry :=
  all.find? (·.name = name)

/-- The statement that takes in the script registered under a name. -/
def statement (name : String) : Declaration :=
  match find? name with
  | some entry => .group name entry.script
  | none => .unregistered name

end SettingsTree.Registered
