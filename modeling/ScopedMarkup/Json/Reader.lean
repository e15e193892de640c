import ScopedMarkup.Json.Basic

/-!
# Reading JSON text

The grammar is the one of RFC 8259 without exceptions: no comma before a closing
bracket, no control character within a string, no digit behind a leading zero, nothing
but blanks around the value, and no byte order mark.

An escape in a string stands for a 16-bit code unit. Two units that form a surrogate
pair are one character; a half without its other half is none, and the string, or the
object that it is a key of, is then kept as it is written.

Reading spends at most two units of fuel on a character. Fuel for the length of the
text is therefore enough, and running out of it is never the reason for a refusal.
-/

namespace ScopedMarkup.Json

/-- Blank between the tokens of JSON. -/
def isBlank (c : Char) : Bool := c == ' ' || c == '\t' || c == '\n' || c == '\r'

/-- The text from its first token on. -/
def skipBlanks (text : List Char) : List Char := text.dropWhile isBlank

/-- What stands in a string: a character, or a code unit given by an escape. -/
inductive StringItem where
  /-- A character. -/
  | char (c : Char)
  /-- A code unit. -/
  | unit (code : Nat)
deriving DecidableEq, Repr

/-- The value of a hexadecimal digit. -/
def hexValue? (c : Char) : Option Nat :=
  if '0' ≤ c ∧ c ≤ '9' then some (c.toNat - 48)
  else if 'a' ≤ c ∧ c ≤ 'f' then some (c.toNat - 87)
  else if 'A' ≤ c ∧ c ≤ 'F' then some (c.toNat - 55)
  else none

/-- The code unit of four hexadecimal digits. -/
def codeUnit? (first second third fourth : Char) : Option Nat := do
  return ((← hexValue? first) * 16 + (← hexValue? second)) * 256 +
    ((← hexValue? third) * 16 + (← hexValue? fourth))

/-- The character that a backslash and a letter stand for. -/
def shortEscape? : Char → Option Char
  | '"' => some '"'
  | '\\' => some '\\'
  | '/' => some '/'
  | 'b' => some '\x08'
  | 'f' => some '\x0c'
  | 'n' => some '\n'
  | 'r' => some '\r'
  | 't' => some '\t'
  | _ => none

/-- The reading of a string that has one more item in front. -/
def withItem (item : StringItem) (reading : Option (List StringItem × List Char)) :
    Option (List StringItem × List Char) :=
  reading.map fun (items, rest) => (item :: items, rest)

/-- The items of a string up to its closing quote, and the text behind it. -/
def readItems : List Char → Option (List StringItem × List Char)
  | [] => none
  | '"' :: rest => some ([], rest)
  | '\\' :: 'u' :: first :: second :: third :: fourth :: rest =>
    match codeUnit? first second third fourth with
    | some code => withItem (.unit code) (readItems rest)
    | none => none
  | '\\' :: letter :: rest =>
    match shortEscape? letter with
    | some c => withItem (.char c) (readItems rest)
    | none => none
  | c :: rest => if c.toNat < 0x20 || c == '\\' then none else withItem (.char c) (readItems rest)

/-- Whether a code unit is the first half of a surrogate pair. -/
def isHighSurrogate (code : Nat) : Bool := 0xD800 ≤ code && code ≤ 0xDBFF

/-- Whether a code unit is the second half of a surrogate pair. -/
def isLowSurrogate (code : Nat) : Bool := 0xDC00 ≤ code && code ≤ 0xDFFF

/-- The character of a surrogate pair. -/
def pairedChar (high low : Nat) : Char :=
  Char.ofNat (0x10000 + (high - 0xD800) * 0x400 + (low - 0xDC00))

/-- The characters of a string, unless half a surrogate pair is left over. -/
def assemble? : List StringItem → Option (List Char)
  | [] => some []
  | .char c :: rest => (assemble? rest).map (c :: ·)
  | .unit high :: .unit low :: rest =>
    if isHighSurrogate high then
      if isLowSurrogate low then (assemble? rest).map (pairedChar high low :: ·) else none
    else if isLowSurrogate high then none
    else (assemble? (.unit low :: rest)).map (Char.ofNat high :: ·)
  | .unit code :: rest =>
    if isHighSurrogate code || isLowSurrogate code then none
    else (assemble? rest).map (Char.ofNat code :: ·)

/-- The text of a string, if it has one, and the text behind its closing quote. -/
def readText (text : List Char) : Option (Option String × List Char) :=
  (readItems text).map fun (items, rest) => ((assemble? items).map String.ofList, rest)

/-- Whether a character can stand in a number. -/
def isNumberChar (c : Char) : Bool :=
  c.isDigit || c == '-' || c == '+' || c == '.' || c == 'e' || c == 'E'

/-- What follows the digits at the head of a text, if there are any. -/
def skipDigits? : List Char → Option (List Char)
  | [] => none
  | c :: rest => if c.isDigit then some (rest.dropWhile Char.isDigit) else none

/-- What follows the integer at the head of a text: a zero, or digits that do not
begin with one. -/
def skipInteger? : List Char → Option (List Char)
  | '0' :: rest => some rest
  | text => skipDigits? text

/-- What follows the fraction at the head of a text, or the text if it has none. -/
def skipFraction? : List Char → Option (List Char)
  | '.' :: rest => skipDigits? rest
  | text => some text

/-- What follows the sign at the head of a text, or the text if it has none. -/
def skipSign : List Char → List Char
  | '+' :: rest => rest
  | '-' :: rest => rest
  | text => text

/-- What follows the exponent at the head of a text, or the text if it has none. -/
def skipExponent? : List Char → Option (List Char)
  | 'e' :: rest => skipDigits? (skipSign rest)
  | 'E' :: rest => skipDigits? (skipSign rest)
  | text => some text

/-- What follows the minus at the head of a text, or the text if it has none. -/
def skipMinus : List Char → List Char
  | '-' :: rest => rest
  | text => text

/-- Whether a text is a number from its first character to its last. -/
def isNumber (written : List Char) : Bool :=
  (skipInteger? (skipMinus written) >>= skipFraction? >>= skipExponent?) == some []

/-- The value of a text of digits. -/
def digitsValue (digits : List Char) : Nat :=
  digits.foldl (fun value digit => 10 * value + (digit.toNat - 48)) 0

/-- The number at the head of a text, and the text behind it. -/
def readNumber (text : List Char) : Option (Json × List Char) :=
  let written := text.takeWhile isNumberChar
  if isNumber written then
    let value := if written.all Char.isDigit then natural (digitsValue written)
      else literal (String.ofList written)
    some (value, text.dropWhile isNumberChar)
  else none

/-- The part of a text that precedes a final part of it. -/
def writtenBefore (text rest : List Char) : String :=
  String.ofList (text.take (text.length - rest.length))

/-- Members under keys that are texts. -/
def namedMembers? : List (Option String × Json) → Option (List (String × Json))
  | [] => some []
  | (some key, value) :: rest => (namedMembers? rest).map ((key, value) :: ·)
  | (none, _) :: _ => none

mutual

/-- The value at the head of a text, blanks aside, and the text behind it. -/
def readValue : Nat → List Char → Option (Json × List Char)
  | 0, _ => none
  | fuel + 1, text =>
    let begun := skipBlanks text
    match begun with
    | 'n' :: 'u' :: 'l' :: 'l' :: rest => some (null, rest)
    | 't' :: 'r' :: 'u' :: 'e' :: rest => some (bool true, rest)
    | 'f' :: 'a' :: 'l' :: 's' :: 'e' :: rest => some (bool false, rest)
    | '"' :: inside =>
      (readText inside).map fun (content, rest) =>
        match content with
        | some text => (string text, rest)
        | none => (literal (writtenBefore begun rest), rest)
    | '[' :: inside =>
      match skipBlanks inside with
      | ']' :: rest => some (array [], rest)
      | _ => (readArray fuel inside).map fun (items, rest) => (array items, rest)
    | '{' :: inside =>
      match skipBlanks inside with
      | '}' :: rest => some (object [], rest)
      | _ =>
        (readMembers fuel inside).map fun (members, rest) =>
          match namedMembers? members with
          | some named => (object named, rest)
          | none => (literal (writtenBefore begun rest), rest)
    | _ => readNumber begun

/-- The values up to the bracket that ends an array, and the text behind it. -/
def readArray : Nat → List Char → Option (List Json × List Char)
  | 0, _ => none
  | fuel + 1, text =>
    match readValue fuel text with
    | none => none
    | some (item, rest) =>
      match skipBlanks rest with
      | ']' :: rest => some ([item], rest)
      | ',' :: rest => (readArray fuel rest).map fun (items, rest) => (item :: items, rest)
      | _ => none

/-- The members up to the brace that ends an object, and the text behind it. -/
def readMembers : Nat → List Char → Option (List (Option String × Json) × List Char)
  | 0, _ => none
  | fuel + 1, text =>
    match skipBlanks text with
    | '"' :: inside =>
      match readText inside with
      | none => none
      | some (key, rest) =>
        match skipBlanks rest with
        | ':' :: rest =>
          match readValue fuel rest with
          | none => none
          | some (value, rest) =>
            match skipBlanks rest with
            | '}' :: rest => some ([(key, value)], rest)
            | ',' :: rest =>
              (readMembers fuel rest).map fun (members, rest) => ((key, value) :: members, rest)
            | _ => none
        | _ => none
    | _ => none

end

/-- The value that a text is. -/
def read? (text : String) : Option Json :=
  let characters := text.toList
  match readValue (2 * characters.length + 2) characters with
  | some (value, rest) => if (skipBlanks rest).isEmpty then some value else none
  | none => none

end ScopedMarkup.Json
