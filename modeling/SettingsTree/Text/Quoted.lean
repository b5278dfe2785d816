import SettingsTree.Text.Unprintable
import SettingsTree.Text.Extending

/-!
# Quoted text in messages

Messages show text and characters between quotes. A character that would not be
seen, or that would be drawn on its neighbour, is written as its code point in
hexadecimal. A quote is escaped only inside quotes of its own kind.
-/
namespace SettingsTree.Text

/-- The lower-case hexadecimal digits of a number, without leading zeros. -/
def hexDigits (n : Nat) : String :=
  String.ofList (Nat.toDigits 16 n)

/-- A character as it stands between quotes of the given kind. -/
def escape (quote c : Char) : String :=
  if c = '\x00' then "\\0"
  else if c = '\t' then "\\t"
  else if c = '\r' then "\\r"
  else if c = '\n' then "\\n"
  else if c = '\\' then "\\\\"
  else if c = quote then String.ofList ['\\', c]
  else if 0x20 ≤ c.toNat ∧ c.toNat < 0x7f then c.toString
  else if isExtending c || isUnprintable c then "\\u\x7b" ++ hexDigits c.toNat ++ "\x7d"
  else c.toString

/-- Text between double quotes. -/
def quoted (text : String) : String :=
  "\"" ++ String.join (text.toList.map (escape '"')) ++ "\""

def quotedChar (c : Char) : String :=
  "'" ++ escape '\'' c ++ "'"

end SettingsTree.Text
