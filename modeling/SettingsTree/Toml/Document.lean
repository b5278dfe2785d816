import SettingsTree.Toml.Outline

/-!
# TOML documents

A document is a list of blocks with an empty line between them. The block of a
table has a header with the path of the table and one line for every value in
place. The tables inside follow, each with the blocks of its own: parents come
before children, and children in their order. A table has no block if it holds
nothing but tables; an empty one has, and so has every repeated one.
-/
namespace SettingsTree.Toml

def lines : List (String × Item) → String
  | [] => ""
  | (name, .plain text) :: rest => key name ++ " = " ++ text ++ "\n" ++ lines rest
  | _ :: rest => lines rest

/-- Whether some entry is a table. -/
def hasTables : List (String × Item) → Bool
  | [] => false
  | (_, .plain _) :: rest => hasTables rest
  | _ :: _ => true

/-- The path of a table as its header shows it. -/
def pathText (path : List String) : String :=
  ".".intercalate (path.map key)

def ownBlock (path : List String) (entries : List (String × Item)) : List String :=
  let body := lines entries
  if path.isEmpty then (if body.isEmpty then [] else [body])
  else if body.isEmpty && hasTables entries then []
  else ["[" ++ pathText path ++ "]\n" ++ body]

mutual

def innerBlocks (path : List String) : List (String × Item) → List String
  | [] => []
  | (name, item) :: rest => itemBlocks (path ++ [name]) item ++ innerBlocks path rest

/-- The blocks of what stands at a path. -/
def itemBlocks (path : List String) : Item → List String
  | .plain _ => []
  | .table entries => ownBlock path entries ++ innerBlocks path entries
  | .tables inner => elementBlocks path inner

def elementBlocks (path : List String) : List (List (String × Item)) → List String
  | [] => []
  | entries :: rest =>
      ("[[" ++ pathText path ++ "]]\n" ++ lines entries) ::
        innerBlocks path entries ++ elementBlocks path rest

end

/-- The document with the given entries at its root. -/
def document (entries : List (String × Item)) : String :=
  "\n".intercalate (ownBlock [] entries ++ innerBlocks [] entries)

end SettingsTree.Toml

namespace SettingsTree

/-- The configuration as a TOML document. -/
def Config.toToml (c : Config) : Except Fault String :=
  (Toml.outline c.emission).map Toml.document

end SettingsTree
