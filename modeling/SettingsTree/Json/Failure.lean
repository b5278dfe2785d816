import SettingsTree.Fault

/-!
# Why a configuration has no JSON text

Failures of JSON can have a position in a text, and the position stands at the
end of the message. A message that ends like a position is therefore taken to
state one: it is shown again with plain numbers, and left out if the line is
zero. Numbers of positions have 64 bits; what does not fit is no position.
-/
namespace SettingsTree.Json

/-- What stands before and after the last occurrence of a pattern. -/
def cutAtLast? (pattern : List Char) : List Char → Option (List Char × List Char)
  | [] => none
  | c :: rest =>
      match cutAtLast? pattern rest with
      | some (before, after) => some (c :: before, after)
      | none =>
          if pattern.isPrefixOf (c :: rest) then some ([], (c :: rest).drop pattern.length)
          else none

def smallNumber? (digits : List Char) : Option Nat :=
  if digits.isEmpty then none
  else
    let n := digits.foldl (fun n c => 10 * n + (c.toNat - '0'.toNat)) 0
    if n < Nat.pow 2 64 then some n else none

structure Position where
  line : Nat
  column : Nat
deriving DecidableEq, Repr

/-- The mark before the line of a position. -/
def lineMark : List Char := " at line ".toList

def columnMark : List Char := " column ".toList

def splitPosition? (message : String) : Option (String × Position) :=
  match cutAtLast? lineMark message.toList with
  | none => none
  | some (before, after) =>
      let (line, rest) := after.span Char.isDigit
      if columnMark.isPrefixOf rest then
        let column := rest.drop columnMark.length
        if column.all Char.isDigit then
          match smallNumber? line, smallNumber? column with
          | some line, some column => some (String.ofList before, ⟨line, column⟩)
          | _, _ => none
        else none
      else none

/-- A message with the position at its end, if there is one, in its shown form. -/
def withPosition (message : String) : String :=
  match splitPosition? message with
  | none => message
  | some (text, position) =>
      if position.line = 0 then text
      else
        text ++ " at line " ++ toString position.line ++ " column " ++ toString position.column

/-- Why a configuration has no JSON text. -/
inductive Failure where
  /-- A setting could not be resolved. -/
  | setting (cause : Fault)
  | keyNotText
  | keyNotFinite

def Failure.message : Failure → String
  | setting cause => withPosition cause.message
  | keyNotText => "key must be a string"
  | keyNotFinite => "float key must be finite (got NaN or +/-inf)"

end SettingsTree.Json
