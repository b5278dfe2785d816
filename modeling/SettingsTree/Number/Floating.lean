import SettingsTree.Number.Binary

/-!
# Floating-point numbers of a fixed size

A sized float is the bits of a member of the single or the double format. Its
order key is an integer: magnitudes ascend with their bits, the two zeros share
a key, and whatever is no number shares one key above infinity.
-/
namespace SettingsTree

inductive FloatKind where
  | f32 | f64
deriving DecidableEq, Repr

namespace FloatKind

def rank : FloatKind → Nat
  | f32 => 0 | f64 => 1

def format : FloatKind → Binary.Format
  | f32 => .single
  | f64 => .double

end FloatKind

/-- The bits of a floating-point number together with their format. -/
structure SizedFloat where
  kind : FloatKind
  bits : Nat
  fits : bits < Nat.pow 2 kind.format.width
deriving DecidableEq

namespace SizedFloat

/-- The number with the given bits; bits beyond the width of the format are dropped. -/
def ofBits (kind : FloatKind) (bits : Nat) : SizedFloat :=
  ⟨kind, bits % Nat.pow 2 kind.format.width, Nat.mod_lt _ (Nat.two_pow_pos _)⟩

def magnitude (x : SizedFloat) : Nat :=
  x.kind.format.magnitude x.bits

def isNegative (x : SizedFloat) : Bool :=
  x.kind.format.isNegative x.bits

def isNaN (x : SizedFloat) : Bool :=
  x.kind.format.infinity < x.magnitude

/-- Numbers compare as their keys do. -/
def orderKey (x : SizedFloat) : Int :=
  if x.isNaN then x.kind.format.infinity + 1
  else if x.isNegative then -x.magnitude
  else x.magnitude

def convert (kind : FloatKind) (x : SizedFloat) : SizedFloat :=
  if x.kind = kind then x else ofBits kind (x.kind.format.convert kind.format x.bits)

def ofInt (kind : FloatKind) (n : Int) : SizedFloat :=
  ofBits kind (kind.format.ofInt n)

end SizedFloat
end SettingsTree
