import ScopedMarkup.Diagnostic.Fault
import ScopedMarkup.Proofs.Settled

/-!
# What the shape of a tag tells of its text

The shape of a tag is computed from its pieces, and the pieces leave out the name, the quotes and
the braces. Nothing is overlooked by that. No line end and no `>` can stand in a name, a quote or a
brace is neither of them, and no single character outside quotes and braces is a `>`, for it would
end the tag. So a tag goes over a line end exactly if one stands anywhere in its text, and a closed
tag holds a `>` in a group or a value exactly if one stands anywhere before its last character.
-/

namespace ScopedMarkup

namespace Piece

/-- What holds of the characters around and outside of what a piece encloses, if the piece is read:
it is no single `>`, and what encloses a value is a quote. -/
def Bounded : Piece → Prop
  | plain c => c ≠ '>'
  | quoted quote _ _ => quote = '"' ∨ quote = '\''
  | group _ => True

/-- Every piece that is read is bounded. -/
theorem bounded_of_read {input : List Char} {piece : Piece} (read : read? input = some piece) :
    piece.Bounded := by
  unfold read? at read
  split at read
  · cases read
  · rename_i c rest
    split at read
    · cases read
    · rename_i other
      split at read
      · rename_i isQuote
        rw [← Option.some.inj read, readQuoted]
        split <;> exact isQuote
      · split at read
        · obtain ⟨_, _, rfl⟩ := Option.map_eq_some_iff.mp read
          trivial
        · rw [← Option.some.inj read]
          exact other

variable {piece : Piece} (bounded : piece.Bounded)
include bounded

/-- A piece goes over a line end if one stands in its text. -/
theorem spansLines_iff : piece.spansLines = true ↔ '\n' ∈ piece.text := by
  cases piece with
  | plain c => rw [spansLines, text, beq_iff_eq, List.mem_singleton, eq_comm]
  | quoted quote body closed =>
    have other : quote ≠ '\n' := by
      rcases bounded with rfl | rfl <;> decide
    cases closed <;> simp [spansLines, text, other.symm]
  | group inner => simp [spansLines, text]

/-- A piece holds a `>` in braces or in quotes if one stands in its text. -/
theorem hasAngle_iff :
    piece.hasAngleInBraces = true ∨ piece.hasAngleInQuotes = true ↔ '>' ∈ piece.text := by
  cases piece with
  | plain c =>
    have other : c ≠ '>' := bounded
    simp [hasAngleInBraces, hasAngleInQuotes, text, other.symm]
  | quoted quote body closed =>
    have other : quote ≠ '>' := by
      rcases bounded with rfl | rfl <;> decide
    cases closed <;> simp [hasAngleInBraces, hasAngleInQuotes, text, other.symm]
  | group inner => simp [hasAngleInBraces, hasAngleInQuotes, text]

end Piece

namespace Tag

variable {tag : Tag} {behind : List Char}

/-- The pieces of a tag that stands are bounded. -/
theorem Stands.bounded (stands : tag.Stands behind) : ∀ piece ∈ tag.body, piece.Bounded := by
  intro piece member
  obtain ⟨_, _, body, _⟩ := stands_iff.mp stands
  rw [← body] at member
  obtain ⟨input, read⟩ := Pattern.exists_read_of_mem_many member
  exact Piece.bounded_of_read read

/-- What ends a name does not stand in the head of a tag, unless it is the `<`. -/
theorem IsNamed.not_mem_head (named : tag.IsNamed) {c : Char} (ended : isNameChar c = false)
    (other : c ≠ '<') : c ∉ tag.head := by
  rw [head, List.mem_cons, not_or]
  refine ⟨other, fun member => ?_⟩
  rw [named.name_named c member] at ended
  exact Bool.false_ne_true ended.symm

/-- A tag goes over a line end if one stands in its text. -/
theorem Stands.spansLines_iff (stands : tag.Stands behind) :
    tag.spansLines = true ↔ '\n' ∈ tag.text := by
  have headFree : '\n' ∉ tag.head := stands.named.not_mem_head (by decide) (by decide)
  have pieces : tag.body.any Piece.spansLines = true ↔ '\n' ∈ tag.body.flatMap Piece.text := by
    rw [List.any_eq_true, List.mem_flatMap]
    refine exists_congr fun piece => and_congr_right fun member => ?_
    exact Piece.spansLines_iff (stands.bounded piece member)
  rw [Tag.spansLines, Bool.or_eq_true, pieces, List.contains_iff_mem, text, List.mem_append,
    List.mem_append, or_iff_right headFree]

/-- A tag holds a `>` in a group or in a value if one stands in its pieces, or before them. -/
theorem Stands.hasAngle_iff (stands : tag.Stands behind) :
    tag.hasAngleInBraces = true ∨ tag.hasAngleInQuotes = true ↔
      '>' ∈ tag.head ++ tag.body.flatMap Piece.text := by
  have headFree : '>' ∉ tag.head := stands.named.not_mem_head (by decide) (by decide)
  rw [hasAngleInBraces, hasAngleInQuotes, List.any_eq_true, List.any_eq_true, List.mem_append,
    or_iff_right headFree, List.mem_flatMap, ← exists_or]
  refine exists_congr fun piece => ?_
  rw [← and_or_left]
  exact and_congr_right fun member => Piece.hasAngle_iff (stands.bounded piece member)

/-- Where a `>` stands is told if one stands in a group or in a value. -/
theorem isSome_anglePlace? (tag : Tag) : tag.anglePlace?.isSome = true ↔
    tag.hasAngleInBraces = true ∨ tag.hasAngleInQuotes = true := by
  rw [anglePlace?]
  cases tag.hasAngleInBraces <;> cases tag.hasAngleInQuotes <;> simp

/-- A closed tag ends with a `>` of its own. -/
theorem text_of_closed (closed : tag.isClosed = true) :
    tag.text = tag.head ++ tag.body.flatMap Piece.text ++ ['>'] := by
  have ending : tag.ending = .closed := by simpa [isClosed] using closed
  rw [text, ending]
  rfl

/-- The text of a closed tag before its last character. -/
theorem text_dropLast_of_closed (closed : tag.isClosed = true) :
    tag.text.dropLast = tag.head ++ tag.body.flatMap Piece.text := by
  rw [text_of_closed closed, List.dropLast_concat]

end Tag

end ScopedMarkup
