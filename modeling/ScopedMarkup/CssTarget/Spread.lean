import ScopedMarkup.Attribute
import ScopedMarkup.Text.Occurrence
import ScopedMarkup.Text.Split

/-!
# Spreads that forward the parent's scope

A tag takes over the scope of its parent by spreading an object that carries
`cssTarget`. As a flat text such a spread is `{`, script blanks, `...`, and then
everything up to the first `}`, provided that `cssTarget` occurs in between. What
stands between the dots and that `}` may hold any other character, also `>` and line
ends, and it is not read as an expression.
-/

namespace ScopedMarkup

/-- A flat spread that mentions `cssTarget`. -/
structure CssSpread where
  /-- The blanks between the brace and the dots. -/
  blanks : List Char
  /-- What stands between the dots and the first `}`. -/
  body : List Char
deriving DecidableEq, Repr

namespace CssSpread

/-- A spread as it is written. -/
def text (spread : CssSpread) : List Char :=
  '{' :: spread.blanks ++ '.' :: '.' :: '.' :: spread.body ++ ['}']

/-- The flat spread at the head of a text. -/
def read? : List Char → Option CssSpread
  | '{' :: rest =>
    match rest.dropWhile Text.isScriptBlank with
    | '.' :: '.' :: '.' :: inside =>
      match Text.cutAt? '}' inside with
      | some (body, _) =>
        if Text.contains cssTargetName body then some ⟨rest.takeWhile Text.isScriptBlank, body⟩
        else none
      | none => none
    | _ => none
  | _ => none

/-- A reading accounts for every character: a spread is followed by what is behind
the first `}` of its body. -/
theorem eq_text_append_of_read {input : List Char} {spread : CssSpread}
    (read : read? input = some spread) : ∃ behind, input = spread.text ++ behind := by
  unfold read? at read
  split at read
  · rename_i rest
    split at read
    · rename_i inside dotted
      split at read
      · rename_i body behind cut
        split at read
        · obtain ⟨joined, _⟩ := (Text.cutAt?_eq_some_iff ..).mp cut
          have whole : rest.takeWhile Text.isScriptBlank ++ rest.dropWhile Text.isScriptBlank = rest :=
            List.takeWhile_append_dropWhile
          rw [dotted, joined] at whole
          refine ⟨behind, ?_⟩
          rw [← Option.some.inj read, text]
          simp only [List.cons_append, List.append_assoc, List.nil_append]
          rw [whole]
        · exact nomatch read
      · exact nomatch read
    · exact nomatch read
  · exact nomatch read

/-- A spread is read from its own characters. -/
theorem text_of_read {input : List Char} {spread : CssSpread} (read : read? input = some spread) :
    spread.text ≠ [] ∧ spread.text <+: input :=
  have ⟨behind, joined⟩ := eq_text_append_of_read read
  ⟨List.cons_ne_nil _ _, behind, joined.symm⟩

/-- The flat spreads that mention `cssTarget`. -/
def pattern : Pattern CssSpread := ⟨read?, text, text_of_read⟩

end CssSpread

end ScopedMarkup
