/-!
# Binary floating-point formats

A format says how many bits the fraction and the exponent of a number take.
`Format.meaning` reads the bits of a magnitude as a coefficient times a power
of two, and `Format.round` goes back: it gives the bits of the member nearest
to a fraction, where a tie goes to the even neighbour and what is too large
goes to infinity. All of it is exact arithmetic on natural numbers.
-/
namespace SettingsTree.Binary

/-- A sign bit, then the bits of the exponent, then the bits of the fraction. -/
structure Format where
  fractionBits : Nat
  exponentBits : Nat
deriving DecidableEq, Repr

/-- What the bits of a magnitude stand for. -/
inductive Meaning where
  | nan
  | infinite
  /-- The number `coefficient * 2 ^ exponent`. -/
  | finite (coefficient : Nat) (exponent : Int)
deriving DecidableEq, Repr

namespace Format

def single : Format := ⟨23, 8⟩

def double : Format := ⟨52, 11⟩

def width (f : Format) : Nat :=
  1 + f.exponentBits + f.fractionBits

/-- The sign bit alone, which is also the number of magnitudes. -/
def signBit (f : Format) : Nat :=
  Nat.pow 2 (f.exponentBits + f.fractionBits)

def infinity (f : Format) : Nat :=
  (Nat.pow 2 f.exponentBits - 1) * Nat.pow 2 f.fractionBits

def leastExponent (f : Format) : Int :=
  2 - Int.pow 2 (f.exponentBits - 1) - f.fractionBits

def isNegative (f : Format) (bits : Nat) : Bool :=
  f.signBit ≤ bits

def magnitude (f : Format) (bits : Nat) : Nat :=
  bits % f.signBit

def signed (f : Format) (negative : Bool) (magnitude : Nat) : Nat :=
  if negative then f.signBit + magnitude else magnitude

/-- Reads a magnitude. The smallest exponent field holds the numbers without a
leading one; every other finite field adds it. -/
def meaning (f : Format) (magnitude : Nat) : Meaning :=
  let fraction := magnitude % Nat.pow 2 f.fractionBits
  let field := magnitude / Nat.pow 2 f.fractionBits
  if f.infinity < magnitude then .nan
  else if magnitude = f.infinity then .infinite
  else if field = 0 then .finite fraction f.leastExponent
  else .finite (Nat.pow 2 f.fractionBits + fraction) (f.leastExponent + (field - 1))

/-- The quotient rounded to the nearest natural number, a tie to the even one. -/
def roundDiv (num den : Nat) : Nat :=
  let q := num / den
  let r := num % den
  if 2 * r < den then q
  else if den < 2 * r then q + 1
  else if q % 2 = 0 then q else q + 1

/-- The exponent `e` for which `num / den` lies between `2 ^ fractionBits` and
twice that many steps of `2 ^ e`, but no less than the least exponent. -/
def scale (f : Format) (num den : Nat) : Int :=
  let guess : Int := (num.log2 : Int) - den.log2
  let below : Bool :=
    if 0 ≤ guess then num < den * Nat.pow 2 guess.toNat
    else num * Nat.pow 2 (-guess).toNat < den
  let exact := if below then guess - 1 else guess
  max f.leastExponent (exact - f.fractionBits)

/-- The magnitude nearest to `num / den`. The field of the exponent and the
rounded coefficient add up, since a coefficient that rounds up to the next power
of two carries into the exponent. -/
def round (f : Format) (num den : Nat) : Nat :=
  if num = 0 then 0 else
    let e := f.scale num den
    let q := roundDiv (num * Nat.pow 2 (-e).toNat) (den * Nat.pow 2 e.toNat)
    min f.infinity ((e - f.leastExponent).toNat * Nat.pow 2 f.fractionBits + q)

def roundScaled (f : Format) (coefficient : Nat) (exponent : Int) : Nat :=
  f.round (coefficient * Nat.pow 2 exponent.toNat) (Nat.pow 2 (-exponent).toNat)

/-- The magnitude nearest to `digits * 10 ^ exponent`. A number with its leading
digit far above or below the range of every format is settled at once. -/
def roundDecimal (f : Format) (digits : Nat) (exponent : Int) : Nat :=
  let top := exponent + ((Nat.toDigits 10 digits).length : Int)
  if digits = 0 ∨ top < -1000 then 0
  else if 1000 < top then f.infinity
  else f.round (digits * Nat.pow 10 exponent.toNat) (Nat.pow 10 (-exponent).toNat)

/-- A magnitude that stands for no number, with the first bit of its fraction set. -/
def nan (f : Format) : Nat :=
  f.infinity + Nat.pow 2 (f.fractionBits - 1)

/-- The bits of the same number in another format, rounded if need be. -/
def convert (source target : Format) (bits : Nat) : Nat :=
  target.signed (source.isNegative bits) <|
    match source.meaning (source.magnitude bits) with
    | .nan => target.nan
    | .infinite => target.infinity
    | .finite coefficient exponent => target.roundScaled coefficient exponent

/-- The bits of the member nearest to an integer. -/
def ofInt (f : Format) (n : Int) : Nat :=
  f.signed (n < 0) (f.round n.natAbs 1)

end Format
end SettingsTree.Binary
