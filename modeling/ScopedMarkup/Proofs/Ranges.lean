import ScopedMarkup.Proofs.Accepted
import ScopedMarkup.Proofs.Placement

/-!
# Ranges of what is read in a text

A hit takes up the bytes from its place on to its end. Reading goes on behind a hit, so of two
hits the one that is read first ends before the other one begins. The same holds of the spreads
of a tag, which are pieces of it in their order.
-/

namespace ScopedMarkup

namespace Pattern

universe u
variable {α : Type u}

/-- The offset behind a hit. -/
def stopOf (pattern : Pattern α) (found : Located α) : Nat :=
  found.position.offset + Text.byteLength (pattern.text found.value)

variable {pattern : Pattern α}

/-- Where a hit is, it is read before what stands behind it. -/
theorem exists_around_of_mem_locate {text : List Char} {position : Position} {found : Located α}
    (member : found ∈ pattern.locate position text) :
    ∃ front behind, text = front ++ (pattern.text found.value ++ behind) ∧
      pattern.read? (pattern.text found.value ++ behind) = some found.value ∧
        found.position = position.after front := by
  induction text using pattern.induction generalizing position with
  | nil => exact absurd member List.not_mem_nil
  | skip c rest unread inductionHypothesis =>
    rw [pattern.locate_of_read_none position c rest unread] at member
    obtain ⟨front, behind, rfl, reading, placed⟩ := inductionHypothesis member
    exact ⟨c :: front, behind, rfl, reading, placed⟩
  | hit first rest read inductionHypothesis =>
    rw [pattern.locate_append position first rest read] at member
    rcases List.mem_cons.mp member with rfl | later
    · exact ⟨[], rest, rfl, read, rfl⟩
    · obtain ⟨front, behind, rfl, reading, placed⟩ := inductionHypothesis later
      refine ⟨pattern.text first ++ front, behind, (List.append_assoc ..).symm, reading, ?_⟩
      rw [placed, Position.after_append]

/-- Hits lie within the text that they are read in. -/
theorem within_of_mem_locate {text : List Char} {position : Position} {found : Located α}
    (member : found ∈ pattern.locate position text) :
    position.offset ≤ found.position.offset ∧
      pattern.stopOf found ≤ position.offset + Text.byteLength text := by
  obtain ⟨front, behind, rfl, _, placed⟩ := exists_around_of_mem_locate member
  rw [stopOf, placed, Position.offset_after, Text.byteLength_append, Text.byteLength_append]
  omega

/-- A hit takes up at least one byte. -/
theorem start_lt_stopOf {text : List Char} {position : Position} {found : Located α}
    (member : found ∈ pattern.locate position text) :
    found.position.offset < pattern.stopOf found := by
  obtain ⟨front, behind, _, reading, _⟩ := exists_around_of_mem_locate member
  have positive := Text.byteLength_pos (pattern.text_of_read reading).1
  rw [stopOf]
  omega

/-- A hit ends before those that are read behind it begin. -/
theorem pairwise_locate (pattern : Pattern α) (position : Position) (text : List Char) :
    (pattern.locate position text).Pairwise fun first second =>
      pattern.stopOf first ≤ second.position.offset := by
  induction text using pattern.induction generalizing position with
  | nil => exact List.Pairwise.nil
  | skip c rest unread inductionHypothesis =>
    rw [pattern.locate_of_read_none position c rest unread]
    exact inductionHypothesis _
  | hit first rest read inductionHypothesis =>
    rw [pattern.locate_append position first rest read]
    refine List.Pairwise.cons ?_ (inductionHypothesis _)
    intro second later
    have early := (within_of_mem_locate later).1
    rwa [Position.offset_after] at early

/-- The byte ranges of the hits of a text. -/
def ranges (pattern : Pattern α) (text : List Char) : List (Nat × Nat) :=
  (pattern.locate Position.start text).map fun found =>
    (found.position.offset, pattern.stopOf found)

/-- A range ends before those that are read behind it begin. -/
theorem pairwise_ranges (pattern : Pattern α) (text : List Char) :
    (pattern.ranges text).Pairwise fun first second => first.2 ≤ second.1 :=
  List.pairwise_map.mpr (pattern.pairwise_locate Position.start text)

/-- Where a text begins moves the ranges of its hits. -/
theorem locate_map_range (pattern : Pattern α) (position : Position) (text : List Char) :
    (pattern.locate position text).map (fun found =>
        (found.position.offset, pattern.stopOf found)) =
      (pattern.ranges text).map (Prod.map (position.offset + ·) (position.offset + ·)) := by
  rw [ranges, locate, locate, locateHits_eq, locateHits_eq, List.map_map, List.map_map, List.map_map]
  refine List.map_congr_left fun hit _ => ?_
  simp [stopOf, Position.offset_after, Position.start, Nat.add_assoc]

/-- The ranges of a text that is parted are those of its first part and, moved by the bytes of
that part, those of the second. -/
theorem Parts.ranges {first second : List Char} (parts : pattern.Parts first second) :
    pattern.ranges (first ++ second) = pattern.ranges first ++
      (pattern.ranges second).map
        (Prod.map (Text.byteLength first + ·) (Text.byteLength first + ·)) := by
  rw [Pattern.ranges, parts.locate, List.map_append,
    pattern.locate_map_range (Position.start.after first), Position.offset_after]
  simp [Pattern.ranges, Position.start]

/-- The range of a hit that covers a place holds the offset of the place. -/
theorem Covers.bytes {position : Position} {before inside : List Char} {found : Located α}
    (covers : pattern.Covers position (before ++ inside) before.length found) :
    ∃ more behind, inside = more ++ behind ∧ more ≠ [] ∧
      pattern.read? (pattern.text found.value ++ behind) = some found.value ∧
      more <:+ pattern.text found.value ∧
      found.position.offset ≤ position.offset + Text.byteLength before ∧
        position.offset + Text.byteLength before + Text.byteLength more = pattern.stopOf found := by
  obtain ⟨front, behind, joined, reading, placed, early, late⟩ := covers
  obtain ⟨taken, rfl⟩ := List.prefix_of_prefix_length_le (List.prefix_append front _)
    ⟨inside, joined⟩ early
  rw [List.append_assoc] at joined
  have rest := List.append_cancel_left joined
  rw [List.length_append] at late
  obtain ⟨more, spelled⟩ := List.prefix_of_prefix_length_le (List.prefix_append taken inside)
    ⟨behind, rest.symm⟩ (by omega)
  rw [← spelled, List.append_assoc] at rest
  refine ⟨more, behind, List.append_cancel_left rest, ?_, reading, ⟨taken, spelled⟩, ?_, ?_⟩
  · rintro rfl
    rw [← spelled, List.append_nil] at late
    omega
  · rw [placed, Position.offset_after, Text.byteLength_append]
    omega
  · rw [stopOf, placed, Position.offset_after, ← spelled, Text.byteLength_append,
      Text.byteLength_append]
    omega

end Pattern

namespace Tag

/-- A spread of some pieces takes up bytes of them. -/
theorem within_of_mem_offsetSpreads {start offset : Nat} {body : List Piece} {spread : Spread}
    (member : (offset, spread) ∈ offsetSpreads start body) :
    start ≤ offset ∧
      offset + Text.byteLength spread.text ≤ start + Text.byteLength (body.flatMap Piece.text) := by
  obtain ⟨front, piece, back, rfl, same, rfl⟩ := piece_of_mem_offsetSpreads member
  rw [← (Piece.text_of_spread same).1, List.flatMap_append, List.flatMap_cons,
    Text.byteLength_append, Text.byteLength_append]
  omega

/-- A spread ends before the next one begins. -/
theorem pairwise_offsetSpreads (start : Nat) (body : List Piece) :
    (offsetSpreads start body).Pairwise fun first second =>
      first.1 + Text.byteLength first.2.text ≤ second.1 := by
  induction body generalizing start with
  | nil => exact List.Pairwise.nil
  | cons piece rest inductionHypothesis =>
    rw [offsetSpreads]
    cases same : piece.spread? with
    | none => exact inductionHypothesis _
    | some spread =>
      refine List.Pairwise.cons ?_ (inductionHypothesis _)
      intro second later
      have early := (within_of_mem_offsetSpreads later).1
      rwa [(Piece.text_of_spread same).1] at early

end Tag

end ScopedMarkup
