import SettingsTree.Config.Emission
import SettingsTree.Config.Write
import SettingsTree.Shape.Basic

/-!
# Typed reads and writes

Settings and whole configurations can be read as a shape, and a value can be
brought into a shape before it is assigned. A configuration can be assigned to a
group of another one as what it hands to a writer.
-/
namespace SettingsTree

/-- Reads a value as a shape. -/
def Value.readAs (v : Value) (shape : Shape) : Except Fault Value :=
  match shape.read v with
  | some w => .ok w
  | none => .error .wrongType

namespace Config

def getAs (c : Config) (name : String) (shape : Shape) : Except Fault Value :=
  (c.value name).bind (Value.readAs · shape)

def readAs (c : Config) (shape : Shape) : Except Fault Value :=
  c.toValue.bind (Value.readAs · shape)

def setAs (c : Config) (name : String) (shape : Shape) (raw : Value) : Attempt Config :=
  match raw.readAs shape with
  | .ok value => c.set name value
  | .error fault => .failed c fault

/-- Assigns an integer of 128 bits. There is no value for it, so it is refused before
the name is looked at. -/
def setWide (c : Config) (_name : String) (_n : Int) : Attempt Config :=
  .failed c .wideInteger

/-- Assigns what another configuration hands to a writer. -/
def setConfig (c : Config) (name : String) (other : Config) : Attempt Config :=
  match other.serialize with
  | .ok value => c.set name value
  | .error fault => .failed c fault

end Config
end SettingsTree
