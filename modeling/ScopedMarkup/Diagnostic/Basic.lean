import ScopedMarkup.Diagnostic.Rule

/-!
# Diagnostics

A diagnostic is a self-contained record: what is wrong, where, which guarantee is at
stake, the text it is about, and what to do. The guarantee always follows from the
code, and every diagnostic is of one type of error.
-/

namespace ScopedMarkup

/-- A record of something wrong at a place of a file. -/
structure Diagnostic where
  /-- The code of the rule. -/
  code : String
  /-- The type of error. -/
  errorType : String
  /-- What is wrong. -/
  message : String
  /-- The guarantee at stake. -/
  guarantee : String
  /-- The path of the file. -/
  file : String
  /-- The line of the place. -/
  line : UInt32
  /-- The column of the place. -/
  column : UInt32
  /-- The text that the record is about, if one is given. -/
  context : Option String
  /-- What to do about it. -/
  hints : List String
deriving DecidableEq, Repr

namespace Diagnostic

/-- The type of error of every diagnostic. -/
def unsupportedShape : String := "UNSUPPORTED_TAG_SHAPE"

/-- The diagnostic with a code, whose guarantee follows from the code. -/
def ofCode (code message file : String) (line column : UInt32) (context : Option String)
    (hints : List String) : Diagnostic where
  code := code
  errorType := unsupportedShape
  message := message
  guarantee := Rule.guaranteeOfCode code
  file := file
  line := line
  column := column
  context := context
  hints := hints

/-- A diagnostic in one line. -/
def display (diagnostic : Diagnostic) : String :=
  "[" ++ diagnostic.code ++ "] " ++ diagnostic.message ++ " (" ++ diagnostic.file ++ ":" ++
    toString diagnostic.line.toNat ++ ":" ++ toString diagnostic.column.toNat ++ ")"

/-- The code and the place of a diagnostic. -/
def brief (diagnostic : Diagnostic) : String :=
  diagnostic.code ++ "@" ++ toString diagnostic.line.toNat ++ ":" ++
    toString diagnostic.column.toNat

end Diagnostic

end ScopedMarkup
