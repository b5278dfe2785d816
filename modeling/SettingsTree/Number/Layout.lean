import SettingsTree.Number.Shortest

/-!
# Written forms of floating-point numbers

A layout says how the digits of a number are set: which numbers are written
positionally and which with an exponent, whether an exponent that is not
negative has a sign, how a tie between two shortest decimals is settled, and
what stands for infinity and for no number. One function, `Layout.write`, serves
every layout.
-/
namespace SettingsTree.Binary

/-- How a floating-point number is written. -/
structure Layout where
  /-- Whether a number with its leading digit at this power of ten is positional. -/
  positional : Int → Bool
  /-- Whether a plus stands before an exponent that is not negative. -/
  plus : Bool
  tie : Tie
  nan : String
  infinity : String
  /-- Whether infinity carries its sign. -/
  signedInfinity : Bool

namespace Layout

/-- Writes `digits * 10 ^ power` in place, with at least one digit on both sides of the point. -/
def positionalText (digits : String) (power : Int) : String :=
  if 0 ≤ power then
    digits ++ String.ofList (List.replicate power.toNat '0') ++ ".0"
  else
    let places := (-power).toNat
    let zeros := String.ofList (List.replicate (places + 1 - digits.length) '0')
    let padded := (zeros ++ digits).toList
    let whole := padded.length - places
    String.ofList (padded.take whole) ++ "." ++ String.ofList (padded.drop whole)

/-- Writes `digits * 10 ^ power` with one digit before the point and the power of ten
of that digit after an `e`; a single digit has no point. -/
def exponentText (plus : Bool) (digits : String) (power : Int) : String :=
  let leading := power + (digits.length : Int) - 1
  let mantissa := match digits.toList with
    | first :: second :: rest => String.ofList (first :: '.' :: second :: rest)
    | _ => digits
  mantissa ++ "e" ++ (if plus && 0 ≤ leading then "+" else "") ++ toString leading

def write (layout : Layout) (f : Format) (bits : Nat) : String :=
  let sign := if f.isNegative bits then "-" else ""
  match f.meaning (f.magnitude bits) with
  | .nan => layout.nan
  | .infinite => if layout.signedInfinity then sign ++ layout.infinity else layout.infinity
  | .finite coefficient exponent =>
      if coefficient = 0 then sign ++ "0.0"
      else
        let (digits, power) := f.shortest layout.tie coefficient exponent
        let text := toString digits
        let leading := power + (text.length : Int) - 1
        sign ++ (if layout.positional leading then positionalText text power
          else exponentText layout.plus text power)

end Layout
end SettingsTree.Binary
