/-!
# Rules of strict scoping

A rule names a shape of tag that scoping would get wrong, and the guarantee that such
a tag would break. Its code is stable and identifies it in every output.
Codes that belong to no rule have no guarantee of their own.
-/

namespace ScopedMarkup

/-- A rule that tags are checked against. -/
inductive Rule where
  /-- The tag has its scope attribute already. -/
  | reservedAttribute
  /-- A spread with `cssTarget` nests braces. -/
  | nestedTarget
  /-- A tag with such a spread holds a `>` before its end. -/
  | angleInTag
  /-- A tag with such a spread goes over several lines. -/
  | multilineTag
  /-- A component has no instance id. -/
  | unknownInstance
  /-- The text of such a spread stands outside the spreads of its tag. -/
  | strayTarget
deriving DecidableEq, Repr

namespace Rule

/-- Every rule, in the order of the codes. -/
def all : List Rule :=
  [reservedAttribute, nestedTarget, angleInTag, multilineTag, unknownInstance, strayTarget]

/-- The code of a rule. -/
def code : Rule → String
  | reservedAttribute => "SVS001"
  | nestedTarget => "SVS002"
  | angleInTag => "SVS003"
  | multilineTag => "SVS004"
  | unknownInstance => "SVS005"
  | strayTarget => "SVS006"

/-- What holds of the output as long as the rule is kept. -/
def guarantee : Rule → String
  | reservedAttribute => "Every tag receives exactly one scope attribute."
  | nestedTarget => "A cssTarget spread is removed entirely from its tag."
  | angleInTag => "A tag carrying a cssTarget spread is rewritten as a whole."
  | multilineTag => "A tag carrying a cssTarget spread is rewritten as a whole."
  | unknownInstance => "Every component instance is scoped by its own instance id."
  | strayTarget => "Attribute values and expressions reach the output unchanged."

/-- The rule with a code. -/
def ofCode? (code : String) : Option Rule := all.find? fun rule => rule.code == code

/-- The guarantee that goes with a code. -/
def guaranteeOfCode (code : String) : String :=
  match ofCode? code with
  | some rule => rule.guarantee
  | none => "Unknown invariant."

/-- A rule is found by its code. -/
theorem ofCode?_code (rule : Rule) : ofCode? rule.code = some rule := by
  cases rule <;> decide

/-- The guarantee of a rule goes with its code. -/
theorem guaranteeOfCode_code (rule : Rule) : guaranteeOfCode rule.code = rule.guarantee := by
  rw [guaranteeOfCode, ofCode?_code]

/-- Rules with one code are one rule. -/
theorem code_injective {first second : Rule} (same : first.code = second.code) : first = second :=
  Option.some.inj (by rw [← ofCode?_code first, same, ofCode?_code])

end Rule

end ScopedMarkup
