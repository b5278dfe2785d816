/-!
# Integers of a fixed size

Eight kinds of integer, each with a least and a greatest member. A sized
integer carries the proof that it lies between them, so reading a number as
another kind is a range test and never wraps around.
-/
namespace SettingsTree

/-- The kinds of sized integer, unsigned before signed and small before large. -/
inductive IntKind where
  | u8 | u16 | u32 | u64 | i8 | i16 | i32 | i64
deriving DecidableEq, Repr

namespace IntKind

def rank : IntKind → Nat
  | u8 => 0 | u16 => 1 | u32 => 2 | u64 => 3
  | i8 => 4 | i16 => 5 | i32 => 6 | i64 => 7

def isSigned : IntKind → Bool
  | u8 | u16 | u32 | u64 => false
  | i8 | i16 | i32 | i64 => true

def width : IntKind → Nat
  | u8 | i8 => 8
  | u16 | i16 => 16
  | u32 | i32 => 32
  | u64 | i64 => 64

def least (kind : IntKind) : Int :=
  if kind.isSigned then -Int.pow 2 (kind.width - 1) else 0

def greatest (kind : IntKind) : Int :=
  if kind.isSigned then Int.pow 2 (kind.width - 1) - 1 else Int.pow 2 kind.width - 1

theorem rank_injective {a b : IntKind} (same : a.rank = b.rank) : a = b := by
  cases a <;> cases b <;> first | rfl | (simp [rank] at same)

end IntKind

/-- An integer together with the kind it belongs to. -/
structure SizedInt where
  kind : IntKind
  val : Int
  fits : kind.least ≤ val ∧ val ≤ kind.greatest
deriving DecidableEq

namespace SizedInt

/-- The member of a kind that equals `n`, if there is one. -/
def ofInt? (kind : IntKind) (n : Int) : Option SizedInt :=
  if fits : kind.least ≤ n ∧ n ≤ kind.greatest then some ⟨kind, n, fits⟩ else none

end SizedInt
end SettingsTree
