import ScopedMarkup.Json.Fields
import ScopedMarkup.Preprocess
import ScopedMarkup.Tag.Span

/-!
# Records as JSON

Each record is written as an object with its keys in alphabetical order. It is read
from such an object, whatever the order of its keys, or from an array of its fields
in the order of declaration, which is the order below.

Every field must be given, with three exceptions: the options of preprocessing all
have defaults, a source may come without instance ids, and an object may leave out the
context of a diagnostic. `null` stands for nothing but an absent context.

A kind of tag is its word, or an object that holds `null` under that word and no other
member. A table of instance ids is an object of texts; of two equal keys the later
counts.
-/

namespace ScopedMarkup

open Json (required? optional?)

namespace TagKind

/-- The kind that a word stands for. -/
def ofWord? (word : String) : Option TagKind :=
  if word = TagKind.element.word then some .element
  else if word = TagKind.component.word then some .component
  else none

/-- A kind as JSON. -/
def toJson (kind : TagKind) : Json := .string kind.word

/-- The kind that a value is. -/
def ofJson? : Json → Option TagKind
  | .string word => ofWord? word
  | .object [(word, .null)] => ofWord? word
  | _ => none

end TagKind

namespace InstanceIds

/-- A table as JSON. -/
def toJson (ids : InstanceIds) : Json :=
  .object (ids.entries.map fun (name, id) => (name, .string id))

/-- The table that a value is. -/
def ofJson? (value : Json) : Option InstanceIds := do
  let members ← value.members?
  let entries ← members.mapM fun (name, id) => (id.string?).map fun text => (name, text)
  return ofList entries

end InstanceIds

namespace SourceLocation

/-- The fields in order. -/
def declaration : Json.Declaration := ⟨["line", "column"], 2⟩

/-- A location as JSON. -/
def toJson (location : SourceLocation) : Json :=
  .object [("column", .ofWord location.column), ("line", .ofWord location.line)]

/-- The location that a value is. -/
def ofJson? (value : Json) : Option SourceLocation := do
  let fields ← value.fields? declaration
  return {
    line := ← required? Json.word? "line" fields
    column := ← required? Json.word? "column" fields }

end SourceLocation

namespace SpreadSpan

/-- The fields in order. -/
def declaration : Json.Declaration :=
  ⟨["start", "end", "expression", "nestedBraces", "mentionsCssTarget"], 5⟩

/-- The record of a spread as JSON. -/
def toJson (span : SpreadSpan) : Json :=
  .object [
    ("end", .natural span.stop),
    ("expression", .string span.expression),
    ("mentionsCssTarget", .bool span.mentionsCssTarget),
    ("nestedBraces", .bool span.nestedBraces),
    ("start", .natural span.start)]

/-- The record of a spread that a value is. -/
def ofJson? (value : Json) : Option SpreadSpan := do
  let fields ← value.fields? declaration
  return {
    start := ← required? Json.offset? "start" fields
    stop := ← required? Json.offset? "end" fields
    expression := ← required? Json.string? "expression" fields
    nestedBraces := ← required? Json.bool? "nestedBraces" fields
    mentionsCssTarget := ← required? Json.bool? "mentionsCssTarget" fields }

end SpreadSpan

namespace TagSpan

/-- The fields in order. -/
def declaration : Json.Declaration :=
  ⟨["name", "kind", "start", "end", "location", "closed", "selfClosing", "multiline",
    "angleInBraces", "angleInQuotes", "spreads"], 11⟩

/-- The record of a tag as JSON. -/
def toJson (span : TagSpan) : Json :=
  .object [
    ("angleInBraces", .bool span.angleInBraces),
    ("angleInQuotes", .bool span.angleInQuotes),
    ("closed", .bool span.closed),
    ("end", .natural span.stop),
    ("kind", span.kind.toJson),
    ("location", span.location.toJson),
    ("multiline", .bool span.multiline),
    ("name", .string span.name),
    ("selfClosing", .bool span.selfClosing),
    ("spreads", .ofList SpreadSpan.toJson span.spreads),
    ("start", .natural span.start)]

/-- The record of a tag that a value is. -/
def ofJson? (value : Json) : Option TagSpan := do
  let fields ← value.fields? declaration
  return {
    name := ← required? Json.string? "name" fields
    kind := ← required? TagKind.ofJson? "kind" fields
    start := ← required? Json.offset? "start" fields
    stop := ← required? Json.offset? "end" fields
    location := ← required? SourceLocation.ofJson? "location" fields
    closed := ← required? Json.bool? "closed" fields
    selfClosing := ← required? Json.bool? "selfClosing" fields
    multiline := ← required? Json.bool? "multiline" fields
    angleInBraces := ← required? Json.bool? "angleInBraces" fields
    angleInQuotes := ← required? Json.bool? "angleInQuotes" fields
    spreads := ← required? (Json.list? SpreadSpan.ofJson?) "spreads" fields }

end TagSpan

namespace Diagnostic

/-- The fields in order. -/
def declaration : Json.Declaration :=
  ⟨["code", "errorType", "message", "guarantee", "file", "line", "column", "context", "hints"], 9⟩

/-- A diagnostic as JSON. -/
def toJson (diagnostic : Diagnostic) : Json :=
  .object [
    ("code", .string diagnostic.code),
    ("column", .ofWord diagnostic.column),
    ("context", .ofOption diagnostic.context),
    ("errorType", .string diagnostic.errorType),
    ("file", .string diagnostic.file),
    ("guarantee", .string diagnostic.guarantee),
    ("hints", .ofList .string diagnostic.hints),
    ("line", .ofWord diagnostic.line),
    ("message", .string diagnostic.message)]

/-- The diagnostic that a value is. -/
def ofJson? (value : Json) : Option Diagnostic := do
  let fields ← value.fields? declaration
  return {
    code := ← required? Json.string? "code" fields
    errorType := ← required? Json.string? "errorType" fields
    message := ← required? Json.string? "message" fields
    guarantee := ← required? Json.string? "guarantee" fields
    file := ← required? Json.string? "file" fields
    line := ← required? Json.word? "line" fields
    column := ← required? Json.word? "column" fields
    context := ← optional? Json.option? none "context" fields
    hints := ← required? (Json.list? Json.string?) "hints" fields }

end Diagnostic

namespace PreprocessOptions

/-- The fields in order. -/
def declaration : Json.Declaration := ⟨["strict", "filePath"], 0⟩

/-- Options as JSON. -/
def toJson (options : PreprocessOptions) : Json :=
  .object [("filePath", .string options.filePath), ("strict", .bool options.strict)]

/-- The options that a value is. -/
def ofJson? (value : Json) : Option PreprocessOptions := do
  let fields ← value.fields? declaration
  return {
    strict := ← optional? Json.bool? PreprocessOptions.default.strict "strict" fields
    filePath := ← optional? Json.string? PreprocessOptions.default.filePath "filePath" fields }

end PreprocessOptions

namespace PreprocessInput

/-- The fields in order. -/
def declaration : Json.Declaration := ⟨["filePath", "code", "instanceIds"], 2⟩

/-- A source as JSON. -/
def toJson (input : PreprocessInput) : Json :=
  .object [
    ("code", .string input.code),
    ("filePath", .string input.filePath),
    ("instanceIds", input.instanceIds.toJson)]

/-- The source that a value is. -/
def ofJson? (value : Json) : Option PreprocessInput := do
  let fields ← value.fields? declaration
  return {
    filePath := ← required? Json.string? "filePath" fields
    code := ← required? Json.string? "code" fields
    instanceIds := ← optional? InstanceIds.ofJson? InstanceIds.empty "instanceIds" fields }

end PreprocessInput

namespace PreprocessResult

/-- The fields in order. -/
def declaration : Json.Declaration :=
  ⟨["code", "tagsScoped", "componentsScoped", "cssTargetsResolved"], 4⟩

/-- A scoped source as JSON. -/
def toJson (result : PreprocessResult) : Json :=
  .object [
    ("code", .string result.code),
    ("componentsScoped", .ofWord result.componentsScoped),
    ("cssTargetsResolved", .ofWord result.cssTargetsResolved),
    ("tagsScoped", .ofWord result.tagsScoped)]

/-- The scoped source that a value is. -/
def ofJson? (value : Json) : Option PreprocessResult := do
  let fields ← value.fields? declaration
  return {
    code := ← required? Json.string? "code" fields
    tagsScoped := ← required? Json.word? "tagsScoped" fields
    componentsScoped := ← required? Json.word? "componentsScoped" fields
    cssTargetsResolved := ← required? Json.word? "cssTargetsResolved" fields }

end PreprocessResult

/-- The outcome of preprocessing a source, as JSON. -/
def PreprocessResult.outcomeJson : Except Diagnostic PreprocessResult → Json
  | .ok result => .object [("ok", result.toJson)]
  | .error diagnostic => .object [("error", diagnostic.toJson)]

end ScopedMarkup
