/-!
# Stamps

Two declarations of equal content are still two declarations: a value assigned
under the one is not kept under the other. Every definition therefore carries a
stamp, and two definitions are the same one exactly when their stamps agree.

Stamps come from a supply. A supply has an author of its own, which whoever
opens the supply must not have used before, and counts the stamps it has given
out; so no stamp is given out twice. A group that results from merging two
groups is a new definition. It needs no supply: its stamp names the two groups
it was merged from.
-/
namespace SettingsTree

/-- The identity of a definition. -/
inductive Stamp where
  | declared (author serial : Nat)
  | merged (ours theirs : Stamp)
deriving DecidableEq, Repr

/-- A source of stamps that have not been given out before. -/
structure Supply where
  author : Nat
  next : Nat := 0
deriving DecidableEq, Repr

namespace Supply

/-- The stamp that is given out next. -/
def stamp (supply : Supply) : Stamp :=
  .declared supply.author supply.next

/-- The supply once that stamp is given out. -/
def advance (supply : Supply) : Supply :=
  { supply with next := supply.next + 1 }

end Supply
end SettingsTree
