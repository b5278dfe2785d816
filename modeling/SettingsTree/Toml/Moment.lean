import SettingsTree.Value.Order

/-!
# Dates and times of TOML

A moment is a date, a time of day, or both, and then possibly with an offset
from universal time. There is no value for it, so it is read as a map with one
entry: its text in a fixed form, with a `T` between date and time, seconds
always given, and no more of the fraction than nine digits without zeros at the
end.
-/
namespace SettingsTree.Toml

structure Date where
  year : Nat
  month : Nat
  day : Nat

structure Time where
  hour : Nat
  minute : Nat
  second : Nat
  /-- The digits of the fraction of a second. -/
  fraction : List Char

def twoDigits? : List Char → Option (Nat × List Char)
  | a :: b :: rest =>
      if a.isDigit && b.isDigit then
        some (10 * (a.toNat - '0'.toNat) + (b.toNat - '0'.toNat), rest)
      else none
  | _ => none

def isLeap (year : Nat) : Bool :=
  year % 4 == 0 && (year % 100 != 0 || year % 400 == 0)

def daysIn (year month : Nat) : Nat :=
  if month = 2 then (if isLeap year then 29 else 28)
  else if month = 4 ∨ month = 6 ∨ month = 9 ∨ month = 11 then 30
  else 31

/-- A date: four digits, two and two, with dashes between them. -/
def date? (text : List Char) : Option (Date × List Char) :=
  match twoDigits? text with
  | none => none
  | some (century, rest) =>
      match twoDigits? rest with
      | some (year, '-' :: rest) =>
          match twoDigits? rest with
          | some (month, '-' :: rest) =>
              match twoDigits? rest with
              | some (day, rest) =>
                  let year := 100 * century + year
                  if 1 ≤ month ∧ month ≤ 12 ∧ 1 ≤ day ∧ day ≤ daysIn year month then
                    some (⟨year, month, day⟩, rest)
                  else none
              | none => none
          | _ => none
      | _ => none

/-- A time of day. Seconds may be left out, and only seconds have a fraction. A minute
can have a leap second. -/
def time? (text : List Char) : Option (Time × List Char) :=
  match twoDigits? text with
  | some (hour, ':' :: rest) =>
      match twoDigits? rest with
      | none => none
      | some (minute, rest) =>
          if 23 < hour ∨ 59 < minute then none
          else
            match rest with
            | ':' :: rest =>
                match twoDigits? rest with
                | none => none
                | some (second, rest) =>
                    if 60 < second then none
                    else
                      match rest with
                      | '.' :: rest =>
                          match rest.span Char.isDigit with
                          | ([], _) => none
                          | (fraction, rest) => some (⟨hour, minute, second, fraction⟩, rest)
                      | rest => some (⟨hour, minute, second, []⟩, rest)
            | rest => some (⟨hour, minute, 0, []⟩, rest)
  | _ => none

def padded (n : Nat) : String :=
  (if n < 10 then "0" else "") ++ toString n

def Date.text (d : Date) : String :=
  padded (d.year / 100) ++ padded (d.year % 100) ++ "-" ++ padded d.month ++ "-" ++ padded d.day

def trimZeros (digits : List Char) : List Char :=
  (digits.reverse.dropWhile (· == '0')).reverse

def Time.text (t : Time) : String :=
  let fraction := trimZeros (t.fraction.take 9)
  padded t.hour ++ ":" ++ padded t.minute ++ ":" ++ padded t.second ++
    (if fraction.isEmpty then "" else "." ++ String.ofList fraction)

/-- The text of an offset: `Z`, or a sign with hours and minutes. Behind the time there
may be nothing at all. -/
def offsetText? : List Char → Option String
  | [] => some ""
  | ['Z'] | ['z'] => some "Z"
  | sign :: rest =>
      if sign = '+' ∨ sign = '-' then
        match twoDigits? rest with
        | some (hours, ':' :: rest) =>
            match twoDigits? rest with
            | some (minutes, []) =>
                if 23 < hours ∨ 59 < minutes then none
                else
                  let shown := if hours = 0 ∧ minutes = 0 then "+" else sign.toString
                  some (shown ++ padded hours ++ ":" ++ padded minutes)
            | _ => none
        | _ => none
      else none

def isDateTimeMark (c : Char) : Bool :=
  c == 'T' || c == 't' || c == ' '

/-- The text of a moment in its fixed form. -/
def momentText? (text : List Char) : Option String :=
  match date? text with
  | some (d, []) => some d.text
  | some (d, mark :: rest) =>
      if isDateTimeMark mark then
        match time? rest with
        | some (t, rest) => (offsetText? rest).map fun o => d.text ++ "T" ++ t.text ++ o
        | none => none
      else none
  | none =>
      match time? text with
      | some (t, []) => some t.text
      | _ => none

/-- The key under which the text of a moment stands. -/
def momentKey : String := "$__toml_private_datetime"

def moment? (text : List Char) : Option Value :=
  (momentText? text).map fun shown => .ofFields [(momentKey, .str shown)]

end SettingsTree.Toml
