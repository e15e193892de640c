import ScopedMarkup.Tag.Piece

/-!
# Tags

A tag is `<`, a name, a run of pieces, and an ending. It is closed by the first `>`
that is no part of a piece. If there is none, or a brace is left open, the tag takes
all of the text that is left. Hence only the last tag of a text can be unclosed, and
a `<` with a letter behind it always begins a tag unless an earlier one covers it.

Nothing else is understood as markup: closing tags, comments and text between tags
are passed over, and a tag within them is a tag like any other.

What diagnostics ask about a tag is computed from its pieces, so it is the same
wherever the tag stands.
-/

namespace ScopedMarkup

/-- How a tag ends. -/
inductive Ending where
  /-- With a `>` of its own. -/
  | closed
  /-- With the text. The rest is empty, or begins with a brace left open. -/
  | unclosed (rest : List Char)
deriving DecidableEq, Repr

namespace Ending

/-- An ending as it is written. -/
def text : Ending → List Char
  | closed => ['>']
  | unclosed rest => rest

/-- The ending of a tag whose pieces are followed by a text. -/
def ofRest : List Char → Ending
  | '>' :: _ => closed
  | rest => unclosed rest

/-- An ending is read from its own characters. -/
theorem text_ofRest_prefix (rest : List Char) : (ofRest rest).text <+: rest := by
  unfold ofRest
  split
  · rename_i behind
    exact ⟨behind, rfl⟩
  · exact List.prefix_rfl

end Ending

/-- An opening tag. -/
structure Tag where
  /-- What it stands for. -/
  kind : TagKind
  /-- Its name, from the first letter on. -/
  name : List Char
  /-- The pieces behind the name. -/
  body : List Piece
  /-- How it ends. -/
  ending : Ending
deriving DecidableEq, Repr

namespace Tag

/-- The `<` and the name of a tag. -/
def head (tag : Tag) : List Char := '<' :: tag.name

/-- A tag as it is written. -/
def text (tag : Tag) : List Char := tag.head ++ tag.body.flatMap Piece.text ++ tag.ending.text

/-- The tag at the head of a text. -/
def read? : List Char → Option Tag
  | '<' :: first :: rest =>
    (TagKind.ofInitial? first).map fun kind =>
      let (body, behind) := Piece.pattern.many (rest.dropWhile isNameChar)
      ⟨kind, first :: rest.takeWhile isNameChar, body, Ending.ofRest behind⟩
  | _ => none

/-- A tag is read from its own characters. -/
theorem text_of_read {input : List Char} {tag : Tag} (read : read? input = some tag) :
    tag.text ≠ [] ∧ tag.text <+: input := by
  unfold read? at read
  split at read
  · rename_i first rest
    obtain ⟨kind, _, rfl⟩ := Option.map_eq_some_iff.mp read
    have whole : rest.takeWhile isNameChar ++ rest.dropWhile isNameChar = rest :=
      List.takeWhile_append_dropWhile
    obtain ⟨body, _⟩ := Piece.pattern.many_spec (rest.dropWhile isNameChar)
    obtain ⟨behind, ended⟩ :=
      Ending.text_ofRest_prefix (Piece.pattern.many (rest.dropWhile isNameChar)).2
    refine ⟨List.cons_ne_nil _ _, behind, ?_⟩
    show '<' :: first :: rest.takeWhile isNameChar ++
      (Piece.pattern.many (rest.dropWhile isNameChar)).1.flatMap Piece.text ++
      (Ending.ofRest (Piece.pattern.many (rest.dropWhile isNameChar)).2).text ++ behind = _
    rw [List.append_assoc, ended, List.append_assoc]
    show '<' :: first :: (rest.takeWhile isNameChar ++
      ((Piece.pattern.many (rest.dropWhile isNameChar)).1.flatMap Piece.pattern.text ++ _)) = _
    rw [← body, whole]
  · exact nomatch read

/-- The tags of a text. -/
def pattern : Pattern Tag := ⟨read?, text, text_of_read⟩

/-- Whether the tag ends with a `>` of its own. -/
def isClosed (tag : Tag) : Bool := tag.ending == .closed

/-- Whether a `/` stands directly before the `>` that ends the tag. -/
def isSelfClosing (tag : Tag) : Bool :=
  tag.isClosed && tag.body.getLast? == some (.plain '/')

/-- Whether the tag goes over a line end. -/
def spansLines (tag : Tag) : Bool :=
  tag.body.any Piece.spansLines || tag.ending.text.contains '\n'

/-- Whether a group of the tag holds a `>`. -/
def hasAngleInBraces (tag : Tag) : Bool := tag.body.any Piece.hasAngleInBraces

/-- Whether a quoted value of the tag holds a `>`. -/
def hasAngleInQuotes (tag : Tag) : Bool := tag.body.any Piece.hasAngleInQuotes

/-- The spreads of the tag. -/
def spreads (tag : Tag) : List Spread := tag.body.filterMap Piece.spread?

/-- Whether the tag forwards the scope of its parent. -/
def forwardsScope (tag : Tag) : Bool := tag.spreads.any Spread.mentionsTarget

/-- Whether the tag gets no attribute. -/
def isExempt (tag : Tag) : Bool := isExemptName tag.name

/-- The spreads among pieces that begin at a byte offset, each with its own offset. -/
def offsetSpreads : Nat → List Piece → List (Nat × Spread)
  | _, [] => []
  | offset, piece :: rest =>
    let behind := offsetSpreads (offset + Text.byteLength piece.text) rest
    match piece.spread? with
    | some spread => (offset, spread) :: behind
    | none => behind

/-- The spreads of a tag that begins at a byte offset, each with its own offset. -/
def spreadsFrom (start : Nat) (tag : Tag) : List (Nat × Spread) :=
  offsetSpreads (start + Text.byteLength tag.head) tag.body

/-- The offsets aside, these are the spreads in order. -/
theorem offsetSpreads_map_snd (offset : Nat) (body : List Piece) :
    (offsetSpreads offset body).map (·.2) = body.filterMap Piece.spread? := by
  induction body generalizing offset with
  | nil => rfl
  | cons piece rest inductionHypothesis =>
    rw [offsetSpreads, List.filterMap_cons]
    cases piece.spread? with
    | none => exact inductionHypothesis _
    | some spread => exact congrArg _ (inductionHypothesis _)

/-- The spreads of a tag are the same wherever it begins. -/
theorem spreadsFrom_map_snd (start : Nat) (tag : Tag) :
    (tag.spreadsFrom start).map (·.2) = tag.spreads :=
  offsetSpreads_map_snd ..

end Tag

/-- The tags of a source with the places at which they stand. -/
def scanTags (source : List Char) : List (Located Tag) := Tag.pattern.locate Position.start source

end ScopedMarkup
