import ScopedMarkup.Tag.Kind

/-!
# Scope attributes

Scoping binds one attribute on each tag. Its value is a template literal that lists
scope ids: the id of the current rendering, before it the tag's own instance id if
the tag is a component, and before that the ids which the parent forwards, if the tag
forwards any. The runtime id and the forwarded ids are free variables of the script
around the markup.

The elements `script` and `style` hold no markup of their own and get no attribute.

The attribute's name tells the two kinds of tags apart. Every attribute begins with
its name and the opening of the template literal, and forwarded ids are put in
directly behind that beginning.
-/

namespace ScopedMarkup

/-- The variable that holds the scope id of the current rendering. -/
def runtimeIdVariable : String := "svelteCssRuntimeId"

/-- The variable that holds the scope ids forwarded by the parent. -/
def inheritedIdsVariable : String := "dataSveltesheetIds"

/-- The name by which a spread forwards the scope of the parent. -/
def cssTargetName : List Char := "cssTarget".toList

/-- Whether tags of a name get no attribute. -/
def isExemptName (name : List Char) : Bool :=
  name == "script".toList || name == "style".toList

/-- The interpolation of a variable in a template literal. -/
def interpolation (variableName : String) : String := "$\x7b" ++ variableName ++ "\x7d"

/-- The name of the attribute that scoping binds on tags of a kind. -/
def TagKind.attributeName : TagKind → String
  | .element => "data-sveltesheet-ids"
  | .component => "dataSveltesheetIds"

/-- How the attribute of a kind begins: its name and an open template literal. -/
def TagKind.attributeOpening (kind : TagKind) : String := kind.attributeName ++ "=\x7b`"

/-- How every attribute ends: the closed template literal. -/
def attributeClosing : String := "`\x7d"

/-- The attribute of native elements. -/
def elementAttribute : String :=
  TagKind.element.attributeOpening ++ interpolation runtimeIdVariable ++ attributeClosing

/-- The attribute of components with an instance id. -/
def componentAttribute (instanceId : String) : String :=
  TagKind.component.attributeOpening ++ instanceId ++ " " ++ interpolation runtimeIdVariable ++
    attributeClosing

/-- What is put in behind the beginning of an attribute to forward the parent's ids. -/
def inheritedIdsEntry : String := interpolation inheritedIdsVariable ++ " "

end ScopedMarkup
