import SettingsTree.Value.Basic

/-!
# Numbers of TOML

An integer is decimal with an optional sign, or hexadecimal, octal or binary
without one. A decimal integer has no leading zeros. Underscores may stand
between digits. What does not fit into a signed integer of 64 bits must fit into
an unsigned one.

A floating-point number has a fraction or an exponent, or is infinite or no
number by name. It is rounded to the nearest double; if that is infinite it is
refused.
-/
namespace SettingsTree.Toml

/-- The digits of a number without the underscores between them. There must be a digit
on both sides of each underscore. -/
def digits? (isDigit : Char → Bool) : List Char → Option (List Char)
  | [] => none
  | [c] => if isDigit c then some [c] else none
  | c :: '_' :: rest =>
      if isDigit c then (digits? isDigit rest).map (c :: ·) else none
  | c :: rest => if isDigit c then (digits? isDigit rest).map (c :: ·) else none

def ofDigits (base : Nat) (digits : List Char) : Nat :=
  digits.foldl (fun n c =>
    base * n + (if c.isDigit then c.toNat - '0'.toNat else c.toLower.toNat - 'a'.toNat + 10)) 0

def isHexDigit (c : Char) : Bool :=
  c.isDigit || ('a' ≤ c && c ≤ 'f') || ('A' ≤ c && c ≤ 'F')

/-- The value of an integer, if it fits. -/
def integer? (n : Int) : Option Value :=
  match SizedInt.ofInt? .i64 n, SizedInt.ofInt? .u64 n with
  | some x, _ => some (.int x)
  | none, some x => some (.int x)
  | none, none => none

/-- The digits of a decimal number without leading zeros. -/
def decimal? (text : List Char) : Option (List Char) :=
  match digits? Char.isDigit text with
  | some ('0' :: _ :: _) => none
  | other => other

/-- Takes the sign off a number. -/
def splitSign : List Char → Bool × List Char
  | '-' :: rest => (true, rest)
  | '+' :: rest => (false, rest)
  | text => (false, text)

def integerText? : List Char → Option Value
  | '0' :: 'x' :: rest => (digits? isHexDigit rest).bind fun ds => integer? (ofDigits 16 ds)
  | '0' :: 'o' :: rest =>
      (digits? (fun c => '0' ≤ c && c ≤ '7') rest).bind fun ds => integer? (ofDigits 8 ds)
  | '0' :: 'b' :: rest =>
      (digits? (fun c => c == '0' || c == '1') rest).bind fun ds => integer? (ofDigits 2 ds)
  | text =>
      let (negative, rest) := splitSign text
      (decimal? rest).bind fun ds =>
        let n : Int := ofDigits 10 ds
        integer? (if negative then -n else n)

def double (negative : Bool) (magnitude : Nat) : Value :=
  .float (.ofBits .f64 (Binary.Format.double.signed negative magnitude))

/-- The exponent of a number: digits after an optional sign. -/
def exponent? (text : List Char) : Option Int :=
  let (negative, rest) := splitSign text
  (digits? Char.isDigit rest).map fun ds =>
    let n : Int := ofDigits 10 ds
    if negative then -n else n

/-- The double nearest to the number written in some digits, with the given number of
them behind the point, times a power of ten. -/
def nearestDouble? (negative : Bool) (whole fraction : List Char) (exponent : Int) :
    Option Value :=
  let magnitude := Binary.Format.double.roundDecimal (ofDigits 10 (whole ++ fraction))
    (exponent - fraction.length)
  if magnitude = Binary.Format.double.infinity then none else some (double negative magnitude)

def isExponentMark (c : Char) : Bool :=
  c == 'e' || c == 'E'

def floatText? (text : List Char) : Option Value :=
  let (negative, rest) := splitSign text
  if rest = ['i', 'n', 'f'] then some (double negative Binary.Format.double.infinity)
  else if rest = ['n', 'a', 'n'] then some (double negative Binary.Format.double.nan)
  else
    let (mantissa, tail) := rest.span fun c => !isExponentMark c
    let (whole, fraction) := mantissa.span (· != '.')
    match decimal? whole, fraction, tail with
    | some ws, [], _ :: exponent =>
        (exponent? exponent).bind fun e => nearestDouble? negative ws [] e
    | some ws, _ :: fraction, [] =>
        (digits? Char.isDigit fraction).bind fun fs => nearestDouble? negative ws fs 0
    | some ws, _ :: fraction, _ :: exponent =>
        match digits? Char.isDigit fraction, exponent? exponent with
        | some fs, some e => nearestDouble? negative ws fs e
        | _, _ => none
    | _, _, _ => none

end SettingsTree.Toml
