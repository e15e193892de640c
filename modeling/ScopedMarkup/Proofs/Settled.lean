import Mathlib.Data.List.TakeWhile
import ScopedMarkup.Proofs.Standing

/-!
# Settled tags

A piece is settled if its own text says where it ends: it is a plain character, a quoted value
with its closing quote, or a balanced group. A tag is settled if it is closed and its pieces
are. What is settled is read back from its own text, whatever stands behind it, so a settled
tag is the same tag in every source.

Every closed tag that is read is settled. The one piece that can be read without being settled
is a quoted value that runs to the end of the text, and then no `>` is left to close the tag.
-/

namespace ScopedMarkup

namespace Piece

/-- Whether the text of a piece says by itself where the piece ends. -/
def Settled : Piece → Prop
  | plain c => c ≠ '>' ∧ c ≠ '"' ∧ c ≠ '\'' ∧ c ≠ '{'
  | quoted quote body closed => (quote = '"' ∨ quote = '\'') ∧ quote ∉ body ∧ closed = true
  | group inner => ∀ more, Braces.group? ('{' :: inner ++ '}' :: more) = some (inner, more)

/-- A settled piece is read back from its own text. -/
theorem Settled.read {piece : Piece} (settled : piece.Settled) (behind : List Char) :
    read? (piece.text ++ behind) = some piece := by
  cases piece with
  | plain c =>
    obtain ⟨notAngle, notDouble, notSingle, notBrace⟩ := settled
    simp [text, read?, notAngle, notDouble, notSingle, notBrace]
  | quoted quote body closed =>
    obtain ⟨quoteKind, absent, rfl⟩ := settled
    have cut : Text.cutAt? quote (body ++ quote :: behind) = some (body, behind) :=
      (Text.cutAt?_eq_some_iff ..).mpr ⟨rfl, absent⟩
    have notAngle : quote ≠ '>' := by
      rcases quoteKind with rfl | rfl <;> decide
    have spelled : (quoted quote body true).text ++ behind = quote :: (body ++ quote :: behind) := by
      simp [text]
    rw [spelled, read?, if_neg notAngle, if_pos quoteKind, readQuoted, cut]
  | group inner =>
    have spelled : (group inner).text ++ behind = '{' :: (inner ++ '}' :: behind) := by
      simp [text]
    have balanced : Braces.group? ('{' :: (inner ++ '}' :: behind)) = some (inner, behind) :=
      settled behind
    rw [spelled, read?, if_neg (by decide), if_neg (by decide), if_pos rfl, balanced]
    rfl

/-- A piece that is read is settled, or it is all that is left of the text. -/
theorem settled_of_read {input : List Char} {piece : Piece} (read : read? input = some piece) :
    piece.Settled ∨ input = piece.text := by
  unfold read? at read
  split at read
  · simp at read
  · rename_i c rest
    split at read
    · simp at read
    · rename_i notAngle
      split at read
      · rename_i quoteKind
        rw [← Option.some.inj read]
        unfold readQuoted
        split
        · rename_i body behind cut
          exact Or.inl ⟨quoteKind, ((Text.cutAt?_eq_some_iff ..).mp cut).2, rfl⟩
        · exact Or.inr (by simp [text])
      · rename_i notQuote
        split at read
        · rename_i brace
          obtain ⟨⟨inner, behind⟩, balanced, rfl⟩ := Option.map_eq_some_iff.mp read
          subst brace
          exact Or.inl fun more => Braces.readInner_inner balanced more
        · rename_i notBrace
          rw [← Option.some.inj read]
          exact Or.inl ⟨notAngle, fun same => notQuote (Or.inl same),
            fun same => notQuote (Or.inr same), notBrace⟩

/-- Settled pieces are read back in front of a run, and the run goes on behind them. -/
theorem many_append_settled {pieces : List Piece} (settled : ∀ piece ∈ pieces, piece.Settled)
    (behind : List Char) :
    Piece.pattern.many (pieces.flatMap text ++ behind) =
      (pieces ++ (Piece.pattern.many behind).1, (Piece.pattern.many behind).2) := by
  induction pieces with
  | nil => rfl
  | cons piece rest inductionHypothesis =>
    have read := (settled piece List.mem_cons_self).read (rest.flatMap text ++ behind)
    have run := Piece.pattern.many_append piece _ read
    rw [inductionHypothesis fun other member => settled other (List.mem_cons_of_mem _ member)] at run
    rw [List.flatMap_cons, List.append_assoc]
    exact run

/-- Settled pieces before a `>` are read back as a run. -/
theorem many_settled {pieces : List Piece} (settled : ∀ piece ∈ pieces, piece.Settled)
    (behind : List Char) :
    Piece.pattern.many (pieces.flatMap text ++ '>' :: behind) = (pieces, '>' :: behind) := by
  have ended : Piece.pattern.many ('>' :: behind) = ([], '>' :: behind) :=
    Piece.pattern.many_of_read_none ('>' :: behind) rfl
  rw [many_append_settled settled, ended, List.append_nil]

/-- The pieces of a run that does not use up the text are settled. -/
theorem settled_of_many {input : List Char} (left : (Piece.pattern.many input).2 ≠ []) :
    ∀ piece ∈ (Piece.pattern.many input).1, piece.Settled := by
  induction input using Piece.pattern.induction with
  | nil => exact absurd rfl left
  | skip c rest unread _ =>
    rw [Piece.pattern.many_of_read_none _ unread]
    simp
  | hit first rest read inductionHypothesis =>
    rw [Piece.pattern.many_append first rest read] at left ⊢
    intro piece member
    rcases List.mem_cons.mp member with rfl | later
    · rcases settled_of_read read with settled | whole
      · exact settled
      · have used : rest = [] := List.append_right_eq_self.mp whole
        subst used
        simp at left
    · exact inductionHypothesis left piece later

end Piece

namespace Tag

/-- A closed tag whose name and pieces say by themselves where they end. -/
structure Settled (tag : Tag) : Prop where
  /-- The name begins with an initial of the kind and goes on with name characters. -/
  named : ∃ first others, tag.name = first :: others ∧ tag.kind.isInitial first = true ∧
    ∀ c ∈ others, isNameChar c = true
  /-- The character behind the name is no name character. -/
  nameEnds : ∀ piece rest, tag.body = piece :: rest → ∃ c, piece = .plain c ∧ isNameChar c = false
  /-- The pieces are settled. -/
  pieces : ∀ piece ∈ tag.body, piece.Settled
  /-- The tag is closed. -/
  closed : tag.ending = .closed

/-- The name of a settled tag consists of name characters. -/
theorem Settled.name_named {tag : Tag} (settled : tag.Settled) :
    ∀ c ∈ tag.name, isNameChar c = true :=
  IsNamed.name_named settled.named

/-- The text of a settled tag. -/
theorem Settled.text_eq {tag : Tag} (settled : tag.Settled) :
    tag.text = '<' :: tag.name ++ (tag.body.flatMap Piece.text ++ ['>']) := by
  rw [text, head, settled.closed, List.append_assoc]
  rfl

/-- A settled tag stands before every text. -/
theorem Settled.stands {tag : Tag} (settled : tag.Settled) (behind : List Char) :
    tag.Stands behind := by
  have spelled : tag.rest ++ behind = tag.body.flatMap Piece.text ++ '>' :: behind := by
    rw [rest, settled.closed, List.append_assoc]
    rfl
  have ended : ∀ c ∈ (tag.rest ++ behind).head?, isNameChar c = false := by
    rw [spelled]
    intro c member
    cases pieces : tag.body with
    | nil =>
      have closing : '>' = c := by simpa [pieces] using member
      rw [← closing]
      decide
    | cons piece more =>
      obtain ⟨next, rfl, ended⟩ := settled.nameEnds piece more pieces
      have here : next = c := by simpa [pieces, Piece.text] using member
      rw [← here]
      exact ended
  refine stands_iff.mpr ⟨settled.named, ended, ?_, ?_⟩
  · rw [spelled, Piece.many_settled settled.pieces]
  · rw [spelled, Piece.many_settled settled.pieces, settled.closed]
    rfl

/-- A settled tag is read back from its own text. -/
theorem Settled.read {tag : Tag} (settled : tag.Settled) (behind : List Char) :
    read? (tag.text ++ behind) = some tag :=
  settled.stands behind

/-- A closed tag that is read is settled. -/
theorem settled_of_read {input : List Char} {tag : Tag} (read : read? input = some tag)
    (closed : tag.isClosed = true) : tag.Settled := by
  unfold read? at read
  split at read
  · rename_i first rest
    obtain ⟨kind, initial, rfl⟩ := Option.map_eq_some_iff.mp read
    obtain ⟨whole, _⟩ := Piece.pattern.many_spec (rest.dropWhile isNameChar)
    have ended : Ending.ofRest (Piece.pattern.many (rest.dropWhile isNameChar)).2 = .closed := by
      simpa [isClosed] using closed
    have left : (Piece.pattern.many (rest.dropWhile isNameChar)).2 ≠ [] := by
      intro used
      simp [used, Ending.ofRest] at ended
    refine ⟨⟨first, _, rfl, (TagKind.ofInitial?_eq_some_iff first kind).mp initial,
      fun c member => List.mem_takeWhile_imp member⟩, ?_, Piece.settled_of_many left, ended⟩
    intro piece others body
    have body' : (Piece.pattern.many (rest.dropWhile isNameChar)).1 = piece :: others := body
    have settled : piece.Settled :=
      Piece.settled_of_many left piece (by rw [body']; exact List.mem_cons_self)
    rw [body', List.flatMap_cons, List.append_assoc] at whole
    have stops := List.head?_dropWhile_not isNameChar rest
    rw [whole] at stops
    cases piece with
    | plain c => exact ⟨c, rfl, by simpa [Piece.pattern, Piece.text] using stops⟩
    | quoted quote body closed =>
      obtain ⟨rfl | rfl, _⟩ := settled <;>
        simp [Piece.pattern, Piece.text, isNameChar, Text.isScriptBlank, Text.inRanges,
          Text.scriptBlankRanges] at stops
    | group inner =>
      simp [Piece.pattern, Piece.text, isNameChar, Text.isScriptBlank, Text.inRanges,
        Text.scriptBlankRanges] at stops
  · simp at read

namespace Stands

variable {tag : Tag} {behind : List Char}

/-- A closed tag that stands is settled. -/
theorem settled (stands : tag.Stands behind) (closed : tag.isClosed = true) : tag.Settled :=
  settled_of_read stands closed

/-- A tag that stands before a text stands by itself. -/
theorem alone (stands : tag.Stands behind) : tag.Stands [] := by
  cases closed : tag.isClosed with
  | true => exact (stands.settled closed).stands []
  | false =>
    rw [stands.behind_eq_nil closed] at stands
    exact stands

/-- A standing tag ends with `>`, or nothing stands behind it. -/
theorem edge (stands : tag.Stands behind) : tag.rest.getLast? = some '>' ∨ behind = [] := by
  cases closed : tag.isClosed with
  | true =>
    refine Or.inl ?_
    rw [rest, (stands.settled closed).closed, List.getLast?_append]
    rfl
  | false => exact Or.inr (stands.behind_eq_nil closed)

end Stands

end Tag

end ScopedMarkup
