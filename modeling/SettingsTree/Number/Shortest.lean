import SettingsTree.Number.Binary

/-!
# The fewest decimal digits that read back

A member of a binary format stands for every number that rounds to it: an
interval around it that ends half way to its neighbours and holds its ends when
its coefficient is even. `Format.shortest` gives the coarsest power of ten that
has a multiple in the interval, and the multiple nearest to the member. Coarser
grids hold fewer digits, so no shorter decimal reads back.

The search starts at a power of ten above the member and goes down one power at
a time. A member lies between two neighbours on each grid and only these can be
the nearest hit.
-/
namespace SettingsTree.Binary

/-- Which of two equally near decimals is taken. -/
inductive Tie where
  | up
  | even
deriving DecidableEq, Repr

/-- An interval around a number, all in the same unit. -/
structure Interval where
  low : Nat
  middle : Nat
  high : Nat
  /-- Whether the two ends belong to the interval. -/
  closed : Bool

def Interval.Holds (i : Interval) (x : Nat) : Prop :=
  if i.closed then i.low ≤ x ∧ x ≤ i.high else i.low < x ∧ x < i.high

instance (i : Interval) (x : Nat) : Decidable (i.Holds x) := by
  unfold Interval.Holds
  infer_instance

def Interval.scaleBy (i : Interval) (factor : Nat) : Interval :=
  ⟨i.low * factor, i.middle * factor, i.high * factor, i.closed⟩

namespace Format

/-- The numbers that round to `coefficient * 2 ^ exponent`, in units of
`2 ^ (exponent - 2)`. The neighbour below a power of two is at half the
distance, except where the steps are already the smallest. -/
def interval (f : Format) (coefficient : Nat) (exponent : Int) : Interval where
  low :=
    if coefficient = Nat.pow 2 f.fractionBits ∧ f.leastExponent < exponent then 4 * coefficient - 1
    else 4 * coefficient - 2
  middle := 4 * coefficient
  high := 4 * coefficient + 2
  closed := coefficient % 2 = 0

end Format

/-- The multiple of `step` that lies in the interval and nearest to its middle. -/
def Interval.nearest? (i : Interval) (tie : Tie) (step : Nat) : Option Nat :=
  let below := i.middle / step
  let above := below + 1
  match decide (i.Holds (below * step)), decide (i.Holds (above * step)) with
  | false, false => none
  | true, false => some below
  | false, true => some above
  | true, true =>
      let down := i.middle - below * step
      let up := above * step - i.middle
      if down < up then some below
      else if up < down then some above
      else match tie with
        | .up => some above
        | .even => some (if below % 2 = 0 then below else above)

/-- Tries the grid of `10 ^ power`, then finer ones. The interval is in units of
`2 ^ unit`, and both sides are brought to whole numbers by cross-multiplying. -/
def Interval.search (i : Interval) (tie : Tie) (unit : Int) : Nat → Int → Nat × Int
  | 0, power => (0, power)
  | grids + 1, power =>
      let step := Nat.pow 10 power.toNat * Nat.pow 2 (-unit).toNat
      let wide := i.scaleBy (Nat.pow 2 unit.toNat * Nat.pow 10 (-power).toNat)
      match wide.nearest? tie step with
      | some digits => (digits, power)
      | none => i.search tie unit grids (power - 1)

namespace Format

/-- A power of ten that is above every number of the given binary size or holds
its leading digit: `1233 / 4096` is just below the decimal logarithm of two. -/
def leadingPower (binaryExponent : Int) : Int :=
  Int.fdiv (binaryExponent * 1233) 4096 + 1

/-- The decimal `digits * 10 ^ power` of fewest digits that reads back as
`coefficient * 2 ^ exponent`; of several the nearest. Seventeen digits tell all
members of the double format apart, so the search ends within twenty grids. -/
def shortest (f : Format) (tie : Tie) (coefficient : Nat) (exponent : Int) : Nat × Int :=
  (f.interval coefficient exponent).search tie (exponent - 2) 20
    (leadingPower (coefficient.log2 + exponent))

end Format
end SettingsTree.Binary
