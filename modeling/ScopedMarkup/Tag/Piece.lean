import ScopedMarkup.Attribute
import ScopedMarkup.Braces
import ScopedMarkup.Text.Blank
import ScopedMarkup.Text.Occurrence
import ScopedMarkup.Text.Split

/-!
# The pieces of a tag behind its name

Behind its name a tag is a run of pieces: quoted values, balanced brace groups, and
single characters. A quoted value ends at the next quote of its kind, for there are
no escapes in markup, or with the text if there is none. A `>` is no piece, so it ends
the run; a `{` that nothing balances is none either, and nothing behind it can be told
apart.

A group is a spread if its text begins with three dots, blanks aside. Its expression
is what follows the dots. Blanks are judged by the Unicode class here.
-/

namespace ScopedMarkup

/-- A piece of a tag behind its name. -/
inductive Piece where
  /-- A character outside quotes and braces. -/
  | plain (c : Char)
  /-- A quoted value, and whether its closing quote is there. -/
  | quoted (quote : Char) (body : List Char) (closed : Bool)
  /-- A balanced group, by the text between its braces. -/
  | group (inner : List Char)
deriving DecidableEq, Repr

/-- A group that spreads an expression. -/
structure Spread where
  /-- The text between the braces. -/
  inner : List Char
  /-- The text behind the dots. -/
  expression : List Char
deriving DecidableEq, Repr

namespace Spread

/-- The spread that a group with this text between its braces is, if it is one. -/
def ofInner? (inner : List Char) : Option Spread :=
  match Text.trimStart inner with
  | '.' :: '.' :: '.' :: expression => some ⟨inner, expression⟩
  | _ => none

/-- The spread as it is written. -/
def text (spread : Spread) : List Char := '{' :: spread.inner ++ ['}']

/-- Whether the expression mentions `cssTarget`. -/
def mentionsTarget (spread : Spread) : Bool := Text.contains cssTargetName spread.expression

/-- Whether there is a brace between the braces. -/
def nestsBraces (spread : Spread) : Bool := spread.inner.contains '{'

/-- The expression without the blanks around it. -/
def trimmed (spread : Spread) : List Char := Text.trim spread.expression

/-- Whether the expression is the object `{cssTarget}`, blanks aside. It is the one
expression with braces that may forward a scope. -/
def isShorthand (spread : Spread) : Bool :=
  spread.expression.filter (fun c => !Text.isUnicodeBlank c) == '{' :: cssTargetName ++ ['}']

end Spread

namespace Piece

/-- A piece as it is written. -/
def text : Piece → List Char
  | plain c => [c]
  | quoted quote body closed => quote :: body ++ if closed then [quote] else []
  | group inner => '{' :: inner ++ ['}']

/-- The quoted value behind an opening quote. -/
def readQuoted (quote : Char) (rest : List Char) : Piece :=
  match Text.cutAt? quote rest with
  | some (body, _) => quoted quote body true
  | none => quoted quote rest false

/-- The piece at the head of a text. -/
def read? : List Char → Option Piece
  | [] => none
  | c :: rest =>
    if c = '>' then none
    else if c = '"' ∨ c = '\'' then some (readQuoted c rest)
    else if c = '{' then (Braces.group? (c :: rest)).map fun (inner, _) => group inner
    else some (plain c)

/-- A quoted value is read from its own characters. -/
theorem text_readQuoted_prefix (quote : Char) (rest : List Char) :
    (readQuoted quote rest).text <+: quote :: rest := by
  unfold readQuoted
  split
  · rename_i body behind cut
    refine ⟨behind, ?_⟩
    rw [((Text.cutAt?_eq_some_iff ..).mp cut).1, text, if_pos rfl]
    simp only [List.cons_append, List.append_assoc, List.nil_append]
  · refine ⟨[], ?_⟩
    rw [text, if_neg Bool.false_ne_true]
    simp only [List.append_nil]

/-- A piece is read from its own characters. -/
theorem text_of_read {input : List Char} {piece : Piece} (read : read? input = some piece) :
    piece.text ≠ [] ∧ piece.text <+: input := by
  unfold read? at read
  split at read
  · exact nomatch read
  · rename_i c rest
    split at read
    · exact nomatch read
    · split at read
      · rw [← Option.some.inj read]
        refine ⟨?_, text_readQuoted_prefix c rest⟩
        unfold readQuoted
        split <;> exact List.cons_ne_nil _ _
      · split at read
        · rename_i brace
          obtain ⟨⟨inner, behind⟩, balanced, rfl⟩ := Option.map_eq_some_iff.mp read
          refine ⟨List.cons_ne_nil _ _, behind, ?_⟩
          rw [Braces.group?_eq balanced, text]
          simp only [List.cons_append, List.append_assoc, List.nil_append]
        · rw [← Option.some.inj read]
          exact ⟨List.cons_ne_nil _ _, rest, rfl⟩

/-- The pieces of a tag. -/
def pattern : Pattern Piece := ⟨read?, text, text_of_read⟩

/-- Whether a piece holds a line end. -/
def spansLines : Piece → Bool
  | plain c => c == '\n'
  | quoted _ body _ => body.contains '\n'
  | group inner => inner.contains '\n'

/-- Whether a piece is a group that holds a `>`. -/
def hasAngleInBraces : Piece → Bool
  | group inner => inner.contains '>'
  | _ => false

/-- Whether a piece is a quoted value that holds a `>`. -/
def hasAngleInQuotes : Piece → Bool
  | quoted _ body _ => body.contains '>'
  | _ => false

/-- The spread that a piece is, if it is one. -/
def spread? : Piece → Option Spread
  | group inner => Spread.ofInner? inner
  | _ => none

end Piece

end ScopedMarkup
