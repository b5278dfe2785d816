import SettingsTree.Config.Basic
import SettingsTree.Config.Copy
import SettingsTree.Config.Emission
import SettingsTree.Config.Typed
import SettingsTree.Config.Values
import SettingsTree.Config.Write
import SettingsTree.Constructor
import SettingsTree.Constructor.Catalogue
import SettingsTree.Directory
import SettingsTree.Fault
import SettingsTree.Identifier
import SettingsTree.Json.Compact
import SettingsTree.Json.Failure
import SettingsTree.Location
import SettingsTree.Number.Binary
import SettingsTree.Number.Floating
import SettingsTree.Number.Layout
import SettingsTree.Number.Shortest
import SettingsTree.Number.Sized
import SettingsTree.Owner
import SettingsTree.Path
import SettingsTree.Proofs.Config.Addresses
import SettingsTree.Proofs.Config.Batches
import SettingsTree.Proofs.Config.Bindings
import SettingsTree.Proofs.Config.Calls
import SettingsTree.Proofs.Config.Changes
import SettingsTree.Proofs.Config.Composition
import SettingsTree.Proofs.Config.Copies
import SettingsTree.Proofs.Config.Emission
import SettingsTree.Proofs.Config.Equality
import SettingsTree.Proofs.Config.Freezing
import SettingsTree.Proofs.Config.Genuine
import SettingsTree.Proofs.Config.Groups
import SettingsTree.Proofs.Config.Kinds
import SettingsTree.Proofs.Config.Leaves
import SettingsTree.Proofs.Config.Ledger
import SettingsTree.Proofs.Config.Merged
import SettingsTree.Proofs.Config.Ordered
import SettingsTree.Proofs.Config.Reach
import SettingsTree.Proofs.Config.Rebinding
import SettingsTree.Proofs.Config.Reload
import SettingsTree.Proofs.Config.Sealing
import SettingsTree.Proofs.Config.Stamped
import SettingsTree.Proofs.Config.Stripped
import SettingsTree.Proofs.Config.Values
import SettingsTree.Proofs.Config.WellFormed
import SettingsTree.Proofs.Config.Wholes
import SettingsTree.Proofs.Renaming.Config
import SettingsTree.Proofs.Renaming.Owner
import SettingsTree.Proofs.Renaming.Stage
import SettingsTree.Proofs.Renaming.World
import SettingsTree.Proofs.Saves
import SettingsTree.Proofs.Schema.Associativity
import SettingsTree.Proofs.Schema.Collisions
import SettingsTree.Proofs.Schema.Content
import SettingsTree.Proofs.Schema.Growth
import SettingsTree.Proofs.Schema.Inlining
import SettingsTree.Proofs.Schema.Mapping
import SettingsTree.Proofs.Schema.Merging
import SettingsTree.Proofs.Schema.Positions
import SettingsTree.Proofs.Schema.Statements
import SettingsTree.Proofs.Stage.Commit
import SettingsTree.Proofs.Stage.Ledger
import SettingsTree.Proofs.Stage.Moves
import SettingsTree.Proofs.Stage.Preview
import SettingsTree.Proofs.Stage.Rejection
import SettingsTree.Proofs.Stage.Simulation
import SettingsTree.Proofs.Value.Equality
import SettingsTree.Proofs.Value.Maps
import SettingsTree.Proofs.World.Alike
import SettingsTree.Proofs.World.Answers
import SettingsTree.Proofs.World.Basic
import SettingsTree.Proofs.World.Bonds
import SettingsTree.Proofs.World.Books
import SettingsTree.Proofs.World.Emission
import SettingsTree.Proofs.World.Finality
import SettingsTree.Proofs.World.Genuine
import SettingsTree.Proofs.World.Inheritance
import SettingsTree.Proofs.World.Isolation
import SettingsTree.Proofs.World.Keyed
import SettingsTree.Proofs.World.Laziness
import SettingsTree.Proofs.World.Named
import SettingsTree.Proofs.World.Omission
import SettingsTree.Proofs.World.Preview
import SettingsTree.Proofs.World.Provenance
import SettingsTree.Proofs.World.Readers
import SettingsTree.Proofs.World.Reads
import SettingsTree.Proofs.World.Refusals
import SettingsTree.Proofs.World.Reload
import SettingsTree.Proofs.World.Sharing
import SettingsTree.Proofs.World.Shortcuts
import SettingsTree.Proofs.World.Snapshots
import SettingsTree.Proofs.World.Stamps
import SettingsTree.Proofs.World.Wholes
import SettingsTree.Schema.Basic
import SettingsTree.Schema.Merge
import SettingsTree.Schema.Registered
import SettingsTree.Schema.Script
import SettingsTree.Shape.Basic
import SettingsTree.Shape.Catalogue
import SettingsTree.Stage
import SettingsTree.Stamp
import SettingsTree.Table
import SettingsTree.Text.Extending
import SettingsTree.Text.Quoted
import SettingsTree.Text.Segments
import SettingsTree.Text.Unprintable
import SettingsTree.Toml.Document
import SettingsTree.Toml.Lexical
import SettingsTree.Toml.Moment
import SettingsTree.Toml.Number
import SettingsTree.Toml.Outline
import SettingsTree.Toml.Reader
import SettingsTree.Toml.Spelling
import SettingsTree.Toml.Tree
import SettingsTree.Value.Basic
import SettingsTree.Value.Describe
import SettingsTree.Value.Order
