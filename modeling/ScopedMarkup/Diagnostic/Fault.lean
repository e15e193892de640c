import ScopedMarkup.CssTarget.Spread
import ScopedMarkup.Diagnostic.Basic
import ScopedMarkup.InstanceIds
import ScopedMarkup.Tag.Basic

/-!
# Faults of tags

A fault is a breach of a rule by a tag, with the detail that its message tells. Each
rule is broken at most once by a tag.

Three rules hold for every tag: it must not bear its scope attribute yet, a component
must have an instance id, and the flat text of a `cssTarget` spread may stand nowhere
but within a spread of the tag that mentions `cssTarget`. The last rule is there
because removal goes by the flat text and knows neither quotes nor expressions. Three
more hold for tags that forward their parent's scope, which are changed as a whole:
no nested braces but those of the shorthand object, no `>` before the end, and no line
end.

Exempt tags get no attribute and are not checked.
-/

namespace ScopedMarkup

/-- Where a `>` stands inside a tag. -/
inductive AnglePlace where
  /-- In a brace group. -/
  | expression
  /-- In a quoted value. -/
  | quotedValue
deriving DecidableEq, Repr

/-- The words for a place in messages. -/
def AnglePlace.words : AnglePlace → String
  | expression => "an expression"
  | quotedValue => "a quoted value"

/-- A breach of a rule. -/
inductive Fault where
  /-- The tag bears its scope attribute already. -/
  | reservedAttribute
  /-- The component has no instance id. -/
  | unknownInstance
  /-- The flat text of a spread stands outside the tag's spreads. -/
  | strayTarget (found : CssSpread)
  /-- A spread that forwards the scope nests braces. -/
  | nestedTarget (spread : Spread)
  /-- A forwarding tag holds a `>` before its end. -/
  | angleInTag (place : AnglePlace)
  /-- A forwarding tag goes over a line end. -/
  | multilineTag
deriving DecidableEq, Repr

namespace Fault

/-- The rule that is broken. -/
def rule : Fault → Rule
  | reservedAttribute => .reservedAttribute
  | unknownInstance => .unknownInstance
  | strayTarget _ => .strayTarget
  | nestedTarget _ => .nestedTarget
  | angleInTag _ => .angleInTag
  | multilineTag => .multilineTag

/-- What is wrong with the tag. -/
def message (tag : Tag) : Fault → String
  | reservedAttribute =>
    tagWords ++ " already carries the reserved attribute `" ++ tag.kind.attributeName ++ "`."
  | unknownInstance => "Component " ++ tagWords ++ " has no instance id."
  | strayTarget found =>
    tagWords ++ " contains `" ++ String.ofList found.text ++
      "` outside an attribute spread; it would be removed."
  | nestedTarget spread =>
    "cssTarget spread `\x7b..." ++ String.ofList spread.trimmed ++ "\x7d` on " ++ tagWords ++
      " contains nested braces."
  | angleInTag place =>
    tagWords ++ " carries a cssTarget spread and " ++ place.words ++ " containing `>`."
  | multilineTag => tagWords ++ " carries a cssTarget spread and spans several lines."
where
  /-- The tag by its name. -/
  tagWords : String := "<" ++ String.ofList tag.name ++ ">"

/-- What to do about a fault. -/
def hints : Fault → List String
  | reservedAttribute => ["The preprocessor must run exactly once per source."]
  | unknownInstance => []
  | strayTarget _ => ["Rename the text or move it out of the tag."]
  | nestedTarget _ => ["Bind the object to a variable and spread that instead."]
  | angleInTag _ => ["Move arrow functions and comparisons out of this tag's attributes."]
  | multilineTag => []

/-- The record of a fault of a tag in a file. -/
def diagnostic (file : String) (found : Located Tag) (fault : Fault) : Diagnostic :=
  .ofCode fault.rule.code (fault.message found.value) file found.position.line
    found.position.column (some (String.ofList found.value.text)) fault.hints

end Fault

namespace Tag

/-- Whether the name of the tag's scope attribute stands before a `=` in the tag. -/
def bearsAttribute (tag : Tag) : Bool :=
  Text.contains (tag.kind.attributeName ++ "=").toList tag.text

/-- Whether the tag is a component without an instance id. -/
def lacksInstance (ids : InstanceIds) (tag : Tag) : Bool :=
  tag.kind == .component && !ids.contains (String.ofList tag.name)

/-- Whether a byte offset lies within a spread that mentions `cssTarget`, in a tag that
begins at `start`. -/
def coversOffset (start : Nat) (tag : Tag) (offset : Nat) : Bool :=
  (tag.spreadsFrom start).any fun (begin, spread) =>
    spread.mentionsTarget && begin ≤ offset && offset < begin + Text.byteLength spread.text

/-- The first flat spread of the tag that begins outside its spreads. -/
def strayTarget? (found : Located Tag) : Option CssSpread :=
  ((CssSpread.pattern.locate found.position found.value.text).find? fun spread =>
    !found.value.coversOffset found.position.offset spread.position.offset).map (·.value)

/-- The first spread of the tag that mentions `cssTarget` and nests braces otherwise
than the shorthand object does. -/
def nestedTarget? (tag : Tag) : Option Spread :=
  tag.spreads.find? fun spread =>
    spread.mentionsTarget && spread.nestsBraces && !spread.isShorthand

/-- Where a `>` stands before the end of the tag. Groups are named before values. -/
def anglePlace? (tag : Tag) : Option AnglePlace :=
  if tag.hasAngleInBraces then some .expression
  else if tag.hasAngleInQuotes then some .quotedValue
  else none

/-- The faults of any tag, in the order of report. -/
def commonFaults (ids : InstanceIds) (found : Located Tag) : List Fault :=
  (if found.value.bearsAttribute then [.reservedAttribute] else []) ++
    (if found.value.lacksInstance ids then [.unknownInstance] else []) ++
    ((strayTarget? found).map Fault.strayTarget).toList

/-- The further faults of a tag that forwards the scope of its parent, in the order of
report. -/
def forwardingFaults (tag : Tag) : List Fault :=
  (tag.nestedTarget?.map Fault.nestedTarget).toList ++
    (tag.anglePlace?.map Fault.angleInTag).toList ++
    (if tag.spansLines then [.multilineTag] else [])

/-- The faults of a tag, in the order of report. -/
def faults (ids : InstanceIds) (found : Located Tag) : List Fault :=
  if found.value.isExempt then []
  else commonFaults ids found ++
    if found.value.forwardsScope then found.value.forwardingFaults else []

end Tag

/-- The diagnostics of a source, tag by tag. -/
def diagnose (ids : InstanceIds) (file : String) (source : List Char) : List Diagnostic :=
  (scanTags source).flatMap fun found => (Tag.faults ids found).map (Fault.diagnostic file found)

end ScopedMarkup
