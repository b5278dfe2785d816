import SettingsTree.Table
import SettingsTree.Location
import SettingsTree.Config.Write
import SettingsTree.Toml.Document
import SettingsTree.Toml.Reader

/-!
# Loading and saving configurations

A directory holds files under names and nothing else. A configuration is saved
by writing its document to a file next to the destination, with the extension
`tmp` in the place of its own, and then moving that file over the destination.
If it cannot be moved, it stays. Loading applies a document to a configuration as
a batch.
-/
namespace SettingsTree

/-- Contents of files under the names of the files. -/
abbrev Directory := Table ByteArray

namespace Directory

def content? (d : Directory) (path : String) : Option ByteArray :=
  ((Location.ofPath? path).bind Location.file?).bind fun name => Table.find? name d

/-- Creates the file that a path leads to, or replaces its content. -/
def write (d : Directory) (path : String) (content : ByteArray) : Attempt Directory :=
  match (Location.ofPath? path).bind Location.file? with
  | some name => .done (Table.insert name content d)
  | none => .failed d .fileAccess

/-- Moves a file over another name. -/
def move (d : Directory) (source target : String) : Attempt Directory :=
  match Table.find? source d with
  | some content => .done (Table.insert target content (Table.erase source d))
  | none => .failed d .fileAccess

/-- Writes a text next to its destination and moves it there. -/
def save (d : Directory) (path text : String) : Attempt Directory :=
  match Location.ofPath? path with
  | none => .failed d .fileAccess
  | some location =>
      match location.temporary? with
      | none => .failed d .fileAccess
      | some temporary =>
          let written : Directory := Table.insert temporary text.toUTF8 d
          match location.file? with
          | some destination => written.move temporary destination
          | none => .failed written .fileAccess

/-- The text of the file that a path leads to, if it has one. -/
def text? (d : Directory) (path : String) : Option String :=
  (d.content? path).bind String.fromUTF8?

end Directory

namespace Config

def updateFromToml (c : Config) (text : String) : Attempt Config :=
  match Toml.read text with
  | some batch => c.update batch
  | none => .failed c .malformedDocument

def load (c : Config) (d : Directory) (path : String) : Attempt Config :=
  match d.text? path with
  | some text => c.updateFromToml text
  | none => .failed c .fileAccess

def save (c : Config) (d : Directory) (path : String) : Attempt Directory :=
  match c.toToml with
  | .ok text => d.save path text
  | .error fault => .failed d fault

end Config
end SettingsTree
