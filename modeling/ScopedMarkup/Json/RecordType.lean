import ScopedMarkup.Json.Reader
import ScopedMarkup.Json.Records
import ScopedMarkup.Json.Writer

/-!
# Types of records

Callers that pass JSON name the type of the record that a text stands for. A text that stands for a
record of its type can be written anew. That brings it into the form in which the library writes:
an object with every field, each under its key, and nothing else.
-/

namespace ScopedMarkup

/-- A type of records that are passed as JSON. -/
inductive RecordType where
  /-- How a source is to be preprocessed. -/
  | options
  /-- A source among others. -/
  | input
  /-- A scoped source. -/
  | result
  /-- A diagnostic. -/
  | error
  /-- A line and a column. -/
  | location
  /-- What a tag stands for. -/
  | kind
  /-- The record of a spread. -/
  | spread
  /-- The record of a tag. -/
  | tag
deriving DecidableEq, Repr

namespace RecordType

/-- The type that a word names. -/
def ofWord? : String → Option RecordType
  | "options" => some options
  | "input" => some input
  | "result" => some result
  | "error" => some error
  | "location" => some location
  | "kind" => some kind
  | "spread" => some spread
  | "tag" => some tag
  | _ => none

/-- The records of a type. -/
@[reducible] def Value : RecordType → Type
  | options => PreprocessOptions
  | input => PreprocessInput
  | result => PreprocessResult
  | error => Diagnostic
  | location => SourceLocation
  | kind => TagKind
  | spread => SpreadSpan
  | tag => TagSpan

/-- A record as JSON. -/
def toJson : (type : RecordType) → type.Value → Json
  | options => PreprocessOptions.toJson
  | input => PreprocessInput.toJson
  | result => PreprocessResult.toJson
  | error => Diagnostic.toJson
  | location => SourceLocation.toJson
  | kind => TagKind.toJson
  | spread => SpreadSpan.toJson
  | tag => TagSpan.toJson

/-- The record that a value is. -/
def ofJson? : (type : RecordType) → Json → Option type.Value
  | options => PreprocessOptions.ofJson?
  | input => PreprocessInput.ofJson?
  | result => PreprocessResult.ofJson?
  | error => Diagnostic.ofJson?
  | location => SourceLocation.ofJson?
  | kind => TagKind.ofJson?
  | spread => SpreadSpan.ofJson?
  | tag => TagSpan.ofJson?

/-- A record as text. -/
def write (type : RecordType) (value : type.Value) : String := (type.toJson value).compact

/-- The record that a text stands for. -/
def read? (type : RecordType) (text : String) : Option type.Value :=
  Json.read? text >>= type.ofJson?

/-- A text written anew, if it stands for a record. -/
def recode? (type : RecordType) (text : String) : Option String :=
  (type.read? text).map type.write

end RecordType

end ScopedMarkup
