import ScopedMarkup.Attribute
import ScopedMarkup.InstanceIds
import ScopedMarkup.Text.Split

/-!
# Openings and the attributes put behind them

An opening is `<` with the whole name behind it, where the name ends at a script
blank or at `>`. A name that ends at `/`, or with the text, makes no opening; a `<`
further inside such a name may still begin one.

Scoping a text puts the attribute of a kind behind every opening of that kind and
changes nothing else. Exempt elements get no attribute. A component without an instance
id gets the attribute of the empty one.
-/

namespace ScopedMarkup

/-- The `<` and the name of a tag. -/
structure Opening where
  /-- The name, from its first letter to its end. -/
  name : List Char
deriving DecidableEq, Repr

namespace Opening

/-- An opening as it is written. -/
def text (opening : Opening) : List Char := '<' :: opening.name

/-- Whether a name that ends before the text `behind` ends as an opening does. -/
def endsBefore : List Char → Bool
  | [] => false
  | next :: _ => Text.isScriptBlank next || next == '>'

/-- The opening of a kind at the head of a text. -/
def read? (kind : TagKind) : List Char → Option Opening
  | '<' :: first :: rest =>
    if kind.isInitial first && endsBefore (rest.dropWhile isNameChar) then
      some ⟨first :: rest.takeWhile isNameChar⟩
    else none
  | _ => none

/-- An opening is read from its own characters. -/
theorem text_of_read {kind : TagKind} {input : List Char} {opening : Opening}
    (read : read? kind input = some opening) : opening.text ≠ [] ∧ opening.text <+: input := by
  unfold read? at read
  split at read
  · split at read
    · rename_i first rest _
      rw [← Option.some.inj read]
      exact ⟨List.cons_ne_nil _ _, List.prefix_cons_inj _ |>.mpr
        (List.prefix_cons_inj _ |>.mpr (List.takeWhile_prefix _))⟩
    · exact nomatch read
  · exact nomatch read

/-- The openings of a kind. -/
def pattern (kind : TagKind) : Pattern Opening := ⟨read? kind, text, text_of_read⟩

/-- Whether an opening gets no attribute. -/
def isExempt (opening : Opening) : Bool := isExemptName opening.name

/-- An opening with the binding of an attribute behind it. -/
def withAttribute (opening : Opening) (binding : String) : List Char :=
  opening.text ++ ' ' :: binding.toList

end Opening

/-- The text with the scope attribute behind every opening of a native element, other
than `script` and `style`. -/
def scopeElements (text : List Char) : Edit :=
  (Opening.pattern .element).edit
    (fun opening =>
      if opening.isExempt then none else some (opening.withAttribute elementAttribute)) text

/-- The text with the scope attribute of its instance behind every opening of a
component. -/
def scopeComponents (ids : InstanceIds) (text : List Char) : Edit :=
  (Opening.pattern .component).edit
    (fun opening =>
      let id := (ids.get? (String.ofList opening.name)).getD ""
      some (opening.withAttribute (componentAttribute id))) text

end ScopedMarkup
