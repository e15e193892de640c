/-!
# Positions in a text

A position is what has been read so far, seen in three ways: as a count of UTF-8
bytes, as a line, and as a column of that line. Lines and columns count from one, in
32-bit words; a line ends at U+000A alone and a column is one character, however many
bytes it takes.

Reading moves a position one character at a time, so the position behind `a ++ b` is
the position behind `b` when reading starts behind `a`. Nothing before a position is
needed to go on from it.
-/

namespace ScopedMarkup

/-- The number of bytes of a text in UTF-8. -/
def Text.byteLength : List Char → Nat
  | [] => 0
  | c :: rest => c.utf8Size + Text.byteLength rest

/-- The text from a byte offset on. An offset that lies past the end or inside a
character has no text from there on. -/
def Text.fromByte? : Nat → List Char → Option (List Char)
  | 0, text => some text
  | _ + 1, [] => none
  | offset + 1, c :: rest =>
    if c.utf8Size ≤ offset + 1 then Text.fromByte? (offset + 1 - c.utf8Size) rest else none

/-- A place between two characters of a text. -/
structure Position where
  /-- The number of bytes before the place. -/
  offset : Nat
  /-- The number of line ends before the place, counted from one. -/
  line : UInt32
  /-- The number of characters between the last line end and the place, counted from one. -/
  column : UInt32
deriving DecidableEq, Repr

namespace Position

/-- The place before the first character. -/
def start : Position := ⟨0, 1, 1⟩

/-- The place behind one more character. -/
def step (position : Position) (c : Char) : Position :=
  if c = '\n' then ⟨position.offset + c.utf8Size, position.line + 1, 1⟩
  else ⟨position.offset + c.utf8Size, position.line, position.column + 1⟩

/-- The place behind a text that is read from here on. -/
def after (position : Position) (text : List Char) : Position := text.foldl step position

@[simp] theorem after_nil (position : Position) : position.after [] = position := rfl

@[simp] theorem after_cons (position : Position) (c : Char) (rest : List Char) :
    position.after (c :: rest) = (position.step c).after rest := rfl

/-- Reading two texts in turn is reading them joined. -/
theorem after_append (position : Position) (first second : List Char) :
    position.after (first ++ second) = (position.after first).after second :=
  List.foldl_append ..

/-- One character moves the offset by its own size. -/
theorem offset_step (position : Position) (c : Char) :
    (position.step c).offset = position.offset + c.utf8Size := by
  unfold step
  split <;> rfl

/-- A text moves the offset by its byte length. -/
theorem offset_after (position : Position) (text : List Char) :
    (position.after text).offset = position.offset + Text.byteLength text := by
  induction text generalizing position with
  | nil => rfl
  | cons c rest inductionHypothesis =>
    rw [after_cons, inductionHypothesis, offset_step, Text.byteLength, Nat.add_assoc]

end Position

namespace Text

@[simp] theorem byteLength_nil : byteLength [] = 0 := rfl

@[simp] theorem byteLength_cons (c : Char) (rest : List Char) :
    byteLength (c :: rest) = c.utf8Size + byteLength rest := rfl

/-- Byte lengths add up. -/
theorem byteLength_append (first second : List Char) :
    byteLength (first ++ second) = byteLength first + byteLength second := by
  induction first with
  | nil => exact (Nat.zero_add _).symm
  | cons c rest inductionHypothesis =>
    rw [List.cons_append, byteLength_cons, byteLength_cons, inductionHypothesis, Nat.add_assoc]

/-- Nothing is skipped at offset zero. -/
@[simp] theorem fromByte?_zero (text : List Char) : fromByte? 0 text = some text := by
  cases text <;> rfl

/-- Going on from the byte length of an initial part leaves the rest. -/
theorem fromByte?_append (first rest : List Char) :
    fromByte? (byteLength first) (first ++ rest) = some rest := by
  induction first with
  | nil => exact fromByte?_zero rest
  | cons c tail inductionHypothesis =>
    obtain ⟨size, sized⟩ : ∃ size, c.utf8Size = size + 1 :=
      ⟨c.utf8Size - 1, by have := c.utf8Size_pos; omega⟩
    have whole : byteLength (c :: tail) = (size + byteLength tail) + 1 := by
      rw [byteLength_cons, sized]; omega
    have left : size + byteLength tail + 1 - c.utf8Size = byteLength tail := by omega
    rw [whole, List.cons_append, fromByte?, if_pos (by omega), left, inductionHypothesis]

/-- The text from an offset on is a final part, and what lies before it has exactly
that many bytes. -/
theorem fromByte?_eq_some_iff (offset : Nat) (text rest : List Char) :
    fromByte? offset text = some rest ↔ ∃ before, text = before ++ rest ∧ byteLength before = offset := by
  constructor
  · intro found
    induction text generalizing offset with
    | nil =>
      cases offset with
      | zero => exact ⟨[], Option.some.inj found, rfl⟩
      | succ offset => exact nomatch found
    | cons c tail inductionHypothesis =>
      cases offset with
      | zero => exact ⟨[], Option.some.inj found, rfl⟩
      | succ offset =>
        rw [fromByte?] at found
        split at found
        · obtain ⟨before, joined, bytes⟩ := inductionHypothesis _ found
          exact ⟨c :: before, by rw [joined, List.cons_append], by rw [byteLength_cons, bytes]; omega⟩
        · exact nomatch found
  · rintro ⟨before, rfl, rfl⟩
    exact fromByte?_append before rest

end Text

end ScopedMarkup
