import SettingsTree.Text.Segments

/-!
# Dotted paths

A dotted path names a setting inside groups inside groups. Splitting a text at
its dots and joining the segments with dots are inverse to each other on
segments without dots; the last segment is the leaf and the others are its
parents. An empty text has one segment, the empty one.
-/
namespace SettingsTree

/-- A walk through groups that ends at a setting or a group. -/
structure Path where
  parents : List String
  leaf : String
deriving DecidableEq, Repr

namespace Path

/-- The last of some segments is the leaf, the others are parents. -/
def ofSegments (first : String) : List String → Path
  | [] => ⟨[], first⟩
  | second :: rest =>
      let path := ofSegments second rest
      ⟨first :: path.parents, path.leaf⟩

def parse (text : String) : Path :=
  let (first, others) := Text.cut '.' text.toList
  ofSegments (String.ofList first) (others.map String.ofList)

def segments (path : Path) : List String :=
  path.parents ++ [path.leaf]

def join (path : Path) : String :=
  ".".intercalate path.segments

theorem segments_ofSegments (first : String) (others : List String) :
    (ofSegments first others).segments = first :: others := by
  induction others generalizing first with
  | nil => rfl
  | cons second rest ih =>
      have := ih second
      simp only [segments] at this
      simp [ofSegments, segments, this]

end Path
end SettingsTree
