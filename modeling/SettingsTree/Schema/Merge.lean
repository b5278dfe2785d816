import SettingsTree.Schema.Basic

/-!
# Merging schemas

The merge of two schemas has the names of the first in their order and then the
new names of the second in theirs. Under a name of both the second wins, except
that two groups become one group with the merge of what they hold; the rest of
that group comes from the second.
-/
namespace SettingsTree

mutual

/-- Combines two schemas into a new one. -/
def Schema.merge (ours : Schema) : Schema → Schema
  | ⟨theirs, _⟩ => ⟨Schema.mergeInto ours.definitions theirs, false⟩

/-- Combines definitions one after the other with those collected so far. -/
def Schema.mergeInto (collected : List Definition) : List Definition → List Definition
  | [] => collected
  | ⟨stamp, name, fallback, construct, reader, some inner⟩ :: rest =>
      let definition : Definition :=
        match Definition.find? name collected with
        | some ⟨ourStamp, _, _, _, _, some ours⟩ =>
            ⟨.merged ourStamp stamp, name, fallback, construct, reader, some (ours.merge inner)⟩
        | _ => ⟨stamp, name, fallback, construct, reader, some inner⟩
      Schema.mergeInto (definition.insert collected) rest
  | ⟨stamp, name, fallback, construct, reader, none⟩ :: rest =>
      let definition : Definition := ⟨stamp, name, fallback, construct, reader, none⟩
      Schema.mergeInto (definition.insert collected) rest

end

end SettingsTree
