import SettingsTree.Text.Quoted
import SettingsTree.Number.Layout
import SettingsTree.Number.Floating

/-!
# How keys, strings and numbers are written in TOML

A string can be written in four ways: basic or literal, on one line or on
several. The first way that needs no escape is taken, in this order: basic,
literal, basic on several lines, literal on several lines. A string that needs
escapes in every way is basic, on several lines if it holds a newline.

Keys are bare where they can be, and otherwise basic or literal on one line.
Numbers never have an exponent, and floating-point numbers always have a point.
-/
namespace SettingsTree.Toml

/-- Whether a character must always be escaped: a control character other than a tab
and a newline. -/
def isControl (c : Char) : Bool :=
  (c.toNat < 0x20 && c != '\t' && c != '\n') || c == '\x7f'

/-- The longest run of a character, where `run` of them come directly before. -/
def longestRun (wanted : Char) (run : Nat) : List Char → Nat
  | [] => run
  | c :: rest =>
      if c = wanted then longestRun wanted (run + 1) rest
      else max run (longestRun wanted 0 rest)

/-- What the choice of a spelling depends on. -/
structure Traits where
  control : Bool
  backslash : Bool
  newline : Bool
  /-- The longest run of single quotes. -/
  singles : Nat
  /-- The longest run of double quotes. -/
  doubles : Nat

def traits (text : List Char) : Traits where
  control := text.any isControl
  backslash := text.contains '\\'
  newline := text.contains '\n'
  singles := longestRun '\'' 0 text
  doubles := longestRun '"' 0 text

/-- The ways to write a string. -/
inductive Spelling where
  | basic
  | literal
  /-- Basic on several lines. -/
  | basicLines
  /-- Literal on several lines. -/
  | literalLines
deriving DecidableEq, Repr

namespace Spelling

/-- The spelling of a string with the given traits. -/
def choose (t : Traits) : Spelling :=
  if !t.control && !t.backslash && t.doubles == 0 && !t.newline then basic
  else if !t.control && t.singles == 0 && !t.newline then literal
  else if !t.control && !t.backslash && t.doubles ≤ 2 then basicLines
  else if !t.control && t.singles ≤ 2 then literalLines
  else if t.newline then basicLines
  else basic

/-- The spelling of a key that is not bare; a newline in it counts as a control character. -/
def chooseKey (t : Traits) : Spelling :=
  if !t.control && !t.newline && !t.backslash && t.doubles == 0 then basic
  else if !t.control && !t.newline && t.singles == 0 then literal
  else basic

def isLiteral : Spelling → Bool
  | literal | literalLines => true
  | basic | basicLines => false

def hasLines : Spelling → Bool
  | basicLines | literalLines => true
  | basic | literal => false

def delimiter : Spelling → String
  | basic => "\""
  | literal => "'"
  | basicLines => "\"\"\""
  | literalLines => "'''"

/-- How many double quotes may stand next to each other. -/
def allowedQuotes : Spelling → Nat
  | basicLines => 2
  | _ => 0

/-- A control character as its code point in four upper-case digits. -/
def codePoint (c : Char) : String :=
  let digits := (Nat.toDigits 16 c.toNat).map Char.toUpper
  "\\u" ++ String.ofList (List.replicate (4 - digits.length) '0' ++ digits)

def escape? (spelling : Spelling) (c : Char) : Option String :=
  if c = '\x08' then some "\\b"
  else if c = '\t' then some "\\t"
  else if c = '\n' then (if spelling.hasLines then none else some "\\n")
  else if c = '\x0c' then some "\\f"
  else if c = '\r' then some "\\r"
  else if c = '\\' then some "\\\\"
  else if isControl c then some (codePoint c)
  else none

/-- The text between the delimiters of a basic string. `run` double quotes have been
written directly before; after an escape the count starts again. -/
def escaped (spelling : Spelling) (run : Nat) : List Char → String
  | [] => ""
  | c :: rest =>
      if c = '"' then
        if spelling.allowedQuotes ≤ run then "\\\"" ++ escaped spelling 0 rest
        else "\"" ++ escaped spelling (run + 1) rest
      else
        match escape? spelling c with
        | some text => text ++ escaped spelling 0 rest
        | none => c.toString ++ escaped spelling 0 rest

/-- Writes a text. On several lines a text with a newline starts on a line of its own. -/
def write (spelling : Spelling) (text : String) : String :=
  let chars := text.toList
  let start := if spelling.hasLines && chars.contains '\n' then "\n" else ""
  let body := if spelling.isLiteral then text else escaped spelling 0 chars
  spelling.delimiter ++ start ++ body ++ spelling.delimiter

end Spelling

/-- A string in the first spelling that needs no escape. -/
def string (text : String) : String :=
  (Spelling.choose (traits text.toList)).write text

def isBare (c : Char) : Bool :=
  c.isAlphanum || c == '_' || c == '-'

/-- A key, bare if it can be. -/
def key (text : String) : String :=
  let chars := text.toList
  if !chars.isEmpty && chars.all isBare then text
  else (Spelling.chooseKey (traits chars)).write text

/-- Floating-point numbers are always positional. -/
def layout : Binary.Layout where
  positional _ := true
  plus := false
  tie := .up
  nan := "nan"
  infinity := "inf"
  signedInfinity := true

def float (x : SizedFloat) : String :=
  layout.write x.kind.format x.bits

end SettingsTree.Toml
