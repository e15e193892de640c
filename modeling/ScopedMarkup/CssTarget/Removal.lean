import ScopedMarkup.Braces
import ScopedMarkup.CssTarget.Spread

/-!
# Removing spreads from a tag

A spread is found as flat text, up to its first `}`. It is removed up to the brace
that balances its own, so that a shorthand object like the one in `{...{cssTarget}}`
leaves no brace behind; only where the braces never balance does the removal end at
the first `}`. Since the balancing brace is a `}`, it never lies before the first one.

Blanks directly before a removed spread go with it, as far back as the previous
removal. Everything else is kept in order.
-/

namespace ScopedMarkup

/-- The characters to remove for the spread at the head of a text. -/
def removal? (input : List Char) : Option (List Char) :=
  match CssSpread.read? input with
  | none => none
  | some spread =>
    match Braces.group? input with
    | some (inner, _) => some ('{' :: inner ++ ['}'])
    | none => some spread.text

/-- A removal takes characters that stand at the head of the text. -/
theorem prefix_of_removal {input removed : List Char} (read : removal? input = some removed) :
    removed ≠ [] ∧ removed <+: input := by
  unfold removal? at read
  split at read
  · exact nomatch read
  · rename_i spread found
    split at read
    · rename_i inner behind balanced
      rw [← Option.some.inj read, Braces.group?_eq balanced]
      refine ⟨List.cons_ne_nil _ _, behind, ?_⟩
      simp only [List.cons_append, List.append_assoc, List.nil_append]
    · rw [← Option.some.inj read]
      exact CssSpread.text_of_read found

/-- The ranges that are removed from a tag. -/
def removals : Pattern (List Char) := ⟨removal?, id, prefix_of_removal⟩

/-- A tag without its spreads and the blanks directly before them. -/
def withoutSpreads (tag : List Char) : List Char :=
  let cut := removals.split tag
  cut.hits.flatMap (fun hit => Text.trimEnd hit.1) ++ cut.tail

end ScopedMarkup
