import ScopedMarkup.Json.Reader
import ScopedMarkup.Json.Records
import ScopedMarkup.Json.Writer

/-!
# Preprocessing for callers that pass JSON

Callers of another runtime pass the table of instance ids, the options and the list of
sources as JSON texts, and get the outcomes of several sources back as one JSON text.
The answers are those of the library for the values that the texts stand for.

A blank text stands for no instance ids and for the default options. There is no such
rule for the sources. The arguments are read in order, and the first one that stands
for no value is the reason for the refusal.
-/

namespace ScopedMarkup.Service

/-- Why a call has no answer. -/
inductive Refusal where
  /-- The text of the instance ids stands for no table. -/
  | invalidInstanceIds
  /-- The text of the options stands for none. -/
  | invalidOptions
  /-- The text of the sources stands for no list of sources. -/
  | invalidInputs
  /-- Something is wrong with the source. -/
  | rejected (diagnostic : Diagnostic)
deriving DecidableEq, Repr

/-- What a refusal says. -/
def Refusal.message : Refusal → String
  | invalidInstanceIds => "Invalid instance ids"
  | invalidOptions => "Invalid options"
  | invalidInputs => "Invalid inputs"
  | rejected diagnostic => diagnostic.display

/-- What a text stands for, where a blank text stands for a default. -/
def readOrDefault {α : Type} (ofJson? : Json → Option α) (default : α) (refusal : Refusal)
    (text : String) : Except Refusal α :=
  if text.toList.all Text.isUnicodeBlank then .ok default
  else
    match Json.read? text >>= ofJson? with
    | some value => .ok value
    | none => .error refusal

/-- The instance ids that a text stands for. -/
def readInstanceIds (text : String) : Except Refusal InstanceIds :=
  readOrDefault InstanceIds.ofJson? InstanceIds.empty .invalidInstanceIds text

/-- The options that a text stands for. -/
def readOptions (text : String) : Except Refusal PreprocessOptions :=
  readOrDefault PreprocessOptions.ofJson? PreprocessOptions.default .invalidOptions text

/-- The sources that a text stands for. -/
def readInputs (text : String) : Except Refusal (List PreprocessInput) :=
  match Json.read? text >>= Json.list? PreprocessInput.ofJson? with
  | some inputs => .ok inputs
  | none => .error .invalidInputs

/-- The text of the scoped source. -/
def addAttributesToTags (code idsText : String) : Except Refusal String := do
  let ids ← readInstanceIds idsText
  return ScopedMarkup.addAttributesToTags ids code

/-- The scoped source. In strict mode a diagnostic is a refusal. -/
def preprocess (code idsText optionsText : String) : Except Refusal PreprocessResult := do
  let ids ← readInstanceIds idsText
  let options ← readOptions optionsText
  match (ScopedMarkup.preprocess ids options code).outcome with
  | .ok result => return result
  | .error diagnostic => throw (.rejected diagnostic)

/-- The outcomes of several sources, as one JSON text. -/
def preprocessBatch (inputsText optionsText : String) : Except Refusal String := do
  let inputs ← readInputs inputsText
  let options ← readOptions optionsText
  return (Json.ofList PreprocessResult.outcomeJson
    (ScopedMarkup.preprocessBatch options inputs)).compact

end ScopedMarkup.Service
