import ScopedMarkup.Tag.Basic

/-!
# Records of scanned tags

A record says of a tag what a reader of the source can check without lexing it again:
its name and kind, its byte range, the line and column at which it begins, its shape,
and its spreads with their byte ranges. Ranges count bytes from the start of the
source and leave their end out.
-/

namespace ScopedMarkup

/-- A line and a column, both counted from one. -/
structure SourceLocation where
  /-- The line. -/
  line : UInt32
  /-- The column, in characters. -/
  column : UInt32
deriving DecidableEq, Repr

/-- The record of a spread in a tag. -/
structure SpreadSpan where
  /-- The offset of its opening brace. -/
  start : Nat
  /-- The offset behind its closing brace. -/
  stop : Nat
  /-- The expression behind the dots, trimmed. -/
  expression : String
  /-- Whether there is a brace between its braces. -/
  nestedBraces : Bool
  /-- Whether its expression mentions `cssTarget`. -/
  mentionsCssTarget : Bool
deriving DecidableEq, Repr

/-- The record of a tag. -/
structure TagSpan where
  /-- Its name. -/
  name : String
  /-- What it stands for. -/
  kind : TagKind
  /-- The offset of its `<`. -/
  start : Nat
  /-- The offset behind its last character. -/
  stop : Nat
  /-- Where it begins. -/
  location : SourceLocation
  /-- Whether it ends with a `>` of its own. -/
  closed : Bool
  /-- Whether a `/` stands directly before that `>`. -/
  selfClosing : Bool
  /-- Whether it goes over a line end. -/
  multiline : Bool
  /-- Whether a `>` stands in one of its brace groups. -/
  angleInBraces : Bool
  /-- Whether a `>` stands in one of its quoted values. -/
  angleInQuotes : Bool
  /-- Its spreads in order. -/
  spreads : List SpreadSpan
deriving DecidableEq, Repr

/-- The line and column of a place. -/
def Position.location (position : Position) : SourceLocation := ⟨position.line, position.column⟩

/-- The record of a spread that begins at a byte offset. -/
def Spread.spanFrom (start : Nat) (spread : Spread) : SpreadSpan where
  start := start
  stop := start + Text.byteLength spread.text
  expression := String.ofList spread.trimmed
  nestedBraces := spread.nestsBraces
  mentionsCssTarget := spread.mentionsTarget

/-- The record of a tag that stands at a place. -/
def TagSpan.ofLocated (found : Located Tag) : TagSpan :=
  let start := found.position.offset
  let tag := found.value
  { name := String.ofList tag.name
    kind := tag.kind
    start := start
    stop := start + Text.byteLength tag.text
    location := found.position.location
    closed := tag.isClosed
    selfClosing := tag.isSelfClosing
    multiline := tag.spansLines
    angleInBraces := tag.hasAngleInBraces
    angleInQuotes := tag.hasAngleInQuotes
    spreads := (tag.spreadsFrom start).map fun (offset, spread) => spread.spanFrom offset }

end ScopedMarkup
