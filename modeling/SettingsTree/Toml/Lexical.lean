/-!
# Blanks, keys and strings of TOML

Readers take the characters that are left of a document and give what they read
with the characters left after it, or nothing if the document is malformed.

Control characters other than tabs have no place in strings and comments, except
for the line ends in strings of several lines. A line ends with a newline, which
a carriage return may precede; a carriage return has no other place.
-/
namespace SettingsTree.Toml

/-- What was read, and the characters left after it. -/
abbrev Parsed (α : Type) := Option (α × List Char)

def isBlank (c : Char) : Bool :=
  c == ' ' || c == '\t'

/-- Whether a character can stand in a comment, or unescaped in a string of one line. -/
def isTextChar (c : Char) : Bool :=
  c == '\t' || (0x20 ≤ c.toNat && c != '\x7f')

def skipBlanks (text : List Char) : List Char :=
  text.dropWhile isBlank

/-- What is left after spaces, tabs, line ends and comments. The flag tells whether a
comment is being skipped. -/
def skipTrivia (inComment : Bool) : List Char → Option (List Char)
  | [] => some []
  | '\n' :: rest => skipTrivia false rest
  | '\r' :: '\n' :: rest => skipTrivia false rest
  | c :: rest =>
      if inComment then (if isTextChar c then skipTrivia true rest else none)
      else if isBlank c then skipTrivia false rest
      else if c = '#' then skipTrivia true rest
      else some (c :: rest)

/-- What is left once nothing but blanks and a comment stands before the end of a line.
The comment and the line end themselves are left. -/
def atLineEnd (text : List Char) : Option (List Char) :=
  match skipBlanks text with
  | [] => some []
  | '\r' :: '\n' :: rest => some ('\n' :: rest)
  | c :: rest => if c = '\n' ∨ c = '#' then some (c :: rest) else none

/-! ### Strings -/

def hexDigit? (c : Char) : Option Nat :=
  if '0' ≤ c ∧ c ≤ '9' then some (c.toNat - '0'.toNat)
  else if 'a' ≤ c ∧ c ≤ 'f' then some (c.toNat - 'a'.toNat + 10)
  else if 'A' ≤ c ∧ c ≤ 'F' then some (c.toNat - 'A'.toNat + 10)
  else none

def hexNumber? (digits : List Char) : Option Nat :=
  digits.foldlM (fun n c => (hexDigit? c).map (16 * n + ·)) 0

def hexChar? (digits : List Char) : Option Char :=
  (hexNumber? digits).bind fun n =>
    if h : n.isValidChar then some (Char.ofNatAux n h) else none

/-- The character that an escape of one letter stands for. -/
def letterEscape? : Char → Option Char
  | 'b' => some '\x08'
  | 't' => some '\t'
  | 'n' => some '\n'
  | 'f' => some '\x0c'
  | 'r' => some '\r'
  | 'e' => some '\x1b'
  | '"' => some '"'
  | '\\' => some '\\'
  | _ => none

def putBefore (c : Option Char) (next : Parsed (List Char)) : Parsed (List Char) :=
  match c, next with
  | some c, some (text, rest) => some (c :: text, rest)
  | _, _ => none

/-- The rest of a basic string, behind its opening quote. -/
def basicString : List Char → Parsed (List Char)
  | [] => none
  | '"' :: rest => some ([], rest)
  | '\\' :: 'x' :: a :: b :: rest => putBefore (hexChar? [a, b]) (basicString rest)
  | '\\' :: 'u' :: a :: b :: c :: d :: rest =>
      putBefore (hexChar? [a, b, c, d]) (basicString rest)
  | '\\' :: 'U' :: a :: b :: c :: d :: e :: f :: g :: h :: rest =>
      putBefore (hexChar? [a, b, c, d, e, f, g, h]) (basicString rest)
  | '\\' :: letter :: rest => putBefore (letterEscape? letter) (basicString rest)
  | c :: rest => if isTextChar c then putBefore (some c) (basicString rest) else none

/-- The rest of a literal string, behind its opening quote. -/
def literalString : List Char → Parsed (List Char)
  | [] => none
  | '\'' :: rest => some ([], rest)
  | c :: rest => if isTextChar c then putBefore (some c) (literalString rest) else none

/-- Where a reader stands in a basic string of several lines. -/
inductive LinePlace where
  | text
  /-- Behind a backslash that no escape follows: the line must end. -/
  | backslash
  /-- Behind the end of such a line: blanks and line ends are left out. -/
  | trimming
deriving DecidableEq

/-- The rest of a basic string of several lines. Up to two quotes may stand before the
closing ones. -/
def basicLines : LinePlace → List Char → Parsed (List Char)
  | _, [] => none
  | .backslash, '\n' :: rest => basicLines .trimming rest
  | .backslash, '\r' :: '\n' :: rest => basicLines .trimming rest
  | .backslash, ' ' :: rest => basicLines .backslash rest
  | .backslash, '\t' :: rest => basicLines .backslash rest
  | .backslash, _ :: _ => none
  | .trimming, '\n' :: rest => basicLines .trimming rest
  | .trimming, '\r' :: '\n' :: rest => basicLines .trimming rest
  | .trimming, ' ' :: rest => basicLines .trimming rest
  | .trimming, '\t' :: rest => basicLines .trimming rest
  | _, '"' :: '"' :: '"' :: '"' :: '"' :: '"' :: _ => none
  | _, '"' :: '"' :: '"' :: '"' :: '"' :: rest => some (['"', '"'], rest)
  | _, '"' :: '"' :: '"' :: '"' :: rest => some (['"'], rest)
  | _, '"' :: '"' :: '"' :: rest => some ([], rest)
  | _, '\\' :: 'x' :: a :: b :: rest => putBefore (hexChar? [a, b]) (basicLines .text rest)
  | _, '\\' :: 'u' :: a :: b :: c :: d :: rest =>
      putBefore (hexChar? [a, b, c, d]) (basicLines .text rest)
  | _, '\\' :: 'U' :: a :: b :: c :: d :: e :: f :: g :: h :: rest =>
      putBefore (hexChar? [a, b, c, d, e, f, g, h]) (basicLines .text rest)
  | _, '\\' :: '\n' :: rest => basicLines .trimming rest
  | _, '\\' :: '\r' :: '\n' :: rest => basicLines .trimming rest
  | _, '\\' :: letter :: rest =>
      if isBlank letter then basicLines .backslash rest
      else putBefore (letterEscape? letter) (basicLines .text rest)
  | _, '\n' :: rest => putBefore (some '\n') (basicLines .text rest)
  | _, '\r' :: '\n' :: rest =>
      putBefore (some '\r') (putBefore (some '\n') (basicLines .text rest))
  | _, c :: rest => if isTextChar c then putBefore (some c) (basicLines .text rest) else none

/-- The rest of a literal string of several lines. Up to two quotes may stand before the
closing ones. -/
def literalLines : List Char → Parsed (List Char)
  | [] => none
  | '\'' :: '\'' :: '\'' :: '\'' :: '\'' :: '\'' :: _ => none
  | '\'' :: '\'' :: '\'' :: '\'' :: '\'' :: rest => some (['\'', '\''], rest)
  | '\'' :: '\'' :: '\'' :: '\'' :: rest => some (['\''], rest)
  | '\'' :: '\'' :: '\'' :: rest => some ([], rest)
  | '\n' :: rest => putBefore (some '\n') (literalLines rest)
  | '\r' :: '\n' :: rest => putBefore (some '\r') (putBefore (some '\n') (literalLines rest))
  | c :: rest => if isTextChar c then putBefore (some c) (literalLines rest) else none

/-- A line end directly behind the opening quotes of several lines is not part of the text. -/
def skipFirstLineEnd : List Char → List Char
  | '\n' :: rest => rest
  | '\r' :: '\n' :: rest => rest
  | text => text

def stringValue : List Char → Parsed String
  | '"' :: '"' :: '"' :: rest =>
      (basicLines .text (skipFirstLineEnd rest)).map fun (text, rest) =>
        (String.ofList text, rest)
  | '"' :: rest => (basicString rest).map fun (text, rest) => (String.ofList text, rest)
  | '\'' :: '\'' :: '\'' :: rest =>
      (literalLines (skipFirstLineEnd rest)).map fun (text, rest) => (String.ofList text, rest)
  | '\'' :: rest => (literalString rest).map fun (text, rest) => (String.ofList text, rest)
  | _ => none

/-! ### Keys -/

/-- Whether a character can stand in a key without quotes. -/
def isKeyChar (c : Char) : Bool :=
  c.isAlphanum || c == '_' || c == '-'

/-- One segment of a key. Quoted ones are on one line. -/
def simpleKey : List Char → Parsed String
  | '"' :: rest => (basicString rest).map fun (text, rest) => (String.ofList text, rest)
  | '\'' :: rest => (literalString rest).map fun (text, rest) => (String.ofList text, rest)
  | text =>
      match text.span isKeyChar with
      | ([], _) => none
      | (name, rest) => some (String.ofList name, rest)

/-- A key of at most `segments` segments with dots between them. -/
def dottedKey (segments : Nat) (text : List Char) : Parsed (String × List String) :=
  match segments with
  | 0 => none
  | more + 1 =>
      match simpleKey (skipBlanks text) with
      | none => none
      | some (name, rest) =>
          match skipBlanks rest with
          | '.' :: rest =>
              (dottedKey more rest).map fun ((second, others), rest) =>
                ((name, second :: others), rest)
          | rest => some ((name, []), rest)

end SettingsTree.Toml
