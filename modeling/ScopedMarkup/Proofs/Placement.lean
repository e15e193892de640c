import Mathlib.Data.List.DropRight
import Mathlib.Data.List.Induction
import Mathlib.Data.List.TakeWhile
import ScopedMarkup.Diagnostic.Fault
import ScopedMarkup.Proofs.Locality
import ScopedMarkup.Tag.Span

/-!
# Places behind another text

Where a place of a text lies once another text stands before it can be told from the place and
the two texts. The offset grows by the bytes of the other text and the line by its line ends. The
column changes only on the first line, which goes on where the other text's last line ends.

Lines and columns are 32-bit words. The laws hold for all texts, because both the reading of a
place and the moving of it wrap in the same way; whether a place is on the first line is told by
its offset, which does not wrap.

The faults of a tag do not depend on where it stands. Only the check for stray spreads looks at
places at all, and it compares places of the tag with each other.
-/

namespace ScopedMarkup

universe u

namespace Text

/-- The characters before the first line end of a text. -/
def firstLine (text : List Char) : List Char := text.takeWhile (· != '\n')

/-- Whether a byte offset of a text lies on its first line. -/
def onFirstLine (text : List Char) (offset : Nat) : Bool := offset ≤ byteLength (firstLine text)

/-- The characters behind the last line end of a text. -/
def lastLine (text : List Char) : List Char := text.rtakeWhile (· != '\n')

/-- One more character goes on the last line, and a line end begins a new one. -/
theorem lastLine_append_singleton (front : List Char) (c : Char) :
    lastLine (front ++ [c]) = if c = '\n' then [] else lastLine front ++ [c] := by
  rw [lastLine, List.rtakeWhile_concat]
  by_cases ended : c = '\n' <;> simp [ended, lastLine]

/-- An initial part has no more bytes than the whole. -/
theorem byteLength_le_of_prefix {first text : List Char} (initial : first <+: text) :
    byteLength first ≤ byteLength text := by
  obtain ⟨rest, rfl⟩ := initial
  rw [byteLength_append]
  exact Nat.le_add_right _ _

/-- An initial part ends on the first line exactly if it holds no line end. With one it has at
least one byte more than that line. -/
theorem onFirstLine_iff {before text : List Char} (initial : before <+: text) :
    onFirstLine text (byteLength before) = true ↔ '\n' ∉ before := by
  rw [onFirstLine, decide_eq_true_eq]
  obtain ⟨rest, rfl⟩ := initial
  constructor
  · intro short ended
    obtain ⟨line, others, rfl, unended⟩ := List.eq_append_cons_of_mem ended
    have kept : ∀ c ∈ line, (c != '\n') = true := by
      intro c member
      exact bne_iff_ne.mpr fun same => unended (same ▸ member)
    have cut : firstLine (line ++ '\n' :: others ++ rest) = line := by
      rw [firstLine, List.append_assoc, List.takeWhile_append_of_pos kept, List.cons_append,
        List.takeWhile_cons, if_neg (by decide), List.append_nil]
    have size : '\n'.utf8Size = 1 := by decide
    rw [cut, byteLength_append, byteLength_cons, size] at short
    omega
  · intro unended
    have kept : ∀ c ∈ before, (c != '\n') = true := by
      intro c member
      exact bne_iff_ne.mpr fun same => unended (same ▸ member)
    refine byteLength_le_of_prefix ?_
    rw [firstLine, List.takeWhile_append_of_pos kept]
    exact List.prefix_append before _

end Text

namespace Position

/-- What reading a text does to a place. With a line end in the text the column starts anew, and
without one the last line is the whole text. -/
theorem after_eq (position : Position) (text : List Char) : position.after text =
    ⟨position.offset + Text.byteLength text, position.line + UInt32.ofNat (text.count '\n'),
      (if '\n' ∈ text then 1 else position.column) +
        UInt32.ofNat (Text.lastLine text).length⟩ := by
  induction text using List.reverseRecOn with
  | nil => simp [Text.lastLine]
  | append_singleton front c inductionHypothesis =>
    have whole := Text.lastLine_append_singleton front c
    rw [after_append, inductionHypothesis, after_cons, after_nil, step]
    by_cases ended : c = '\n'
    · subst ended
      simp [whole, Text.byteLength_append, Nat.add_assoc, UInt32.ofNat_add, UInt32.add_assoc]
    · have other : '\n' ≠ c := fun same => ended same.symm
      simp [whole, ended, other, Text.byteLength_append, Nat.add_assoc, UInt32.ofNat_add,
        UInt32.add_assoc]

/-- Where a place of `second` lies when `first` stands before it. -/
def behind (first second : List Char) (position : Position) : Position where
  offset := Text.byteLength first + position.offset
  line := position.line + UInt32.ofNat (first.count '\n')
  column :=
    if Text.onFirstLine second position.offset then
      position.column + UInt32.ofNat (Text.lastLine first).length
    else position.column

/-- Reading on from behind the first text leads to the moved places of the second. -/
theorem after_behind (first : List Char) {before second : List Char} (initial : before <+: second) :
    (start.after first).after before = (start.after before).behind first second := by
  have lines : 1 + UInt32.ofNat (first.count '\n') + UInt32.ofNat (before.count '\n') =
      1 + UInt32.ofNat (before.count '\n') + UInt32.ofNat (first.count '\n') := by
    rw [UInt32.add_assoc, UInt32.add_assoc, UInt32.add_comm (UInt32.ofNat (first.count '\n'))]
  have columns : 1 + UInt32.ofNat (Text.lastLine first).length +
      UInt32.ofNat (Text.lastLine before).length =
        1 + UInt32.ofNat (Text.lastLine before).length +
          UInt32.ofNat (Text.lastLine first).length := by
    rw [UInt32.add_assoc, UInt32.add_assoc,
      UInt32.add_comm (UInt32.ofNat (Text.lastLine first).length)]
  have onFirst := Text.onFirstLine_iff initial
  simp only [after_eq, start, behind, Nat.zero_add, ite_self, onFirst, lines]
  by_cases ended : '\n' ∈ before
  · simp [ended]
  · simp [ended, columns]

end Position

/-- What stands in `second`, seen where it stands when `first` is put before that text. -/
def Located.behind {α : Type u} (first second : List Char) (found : Located α) : Located α :=
  ⟨found.position.behind first second, found.value⟩

namespace Pattern

variable {α : Type u} {pattern : Pattern α}

/-- The places of hits that follow others are told from behind those. -/
theorem locateHits_append (pattern : Pattern α) (position : Position)
    (hits others : List (List Char × α)) :
    pattern.locateHits position (hits ++ others) = pattern.locateHits position hits ++
      pattern.locateHits (position.after ((⟨hits, []⟩ : Split α).render pattern.text)) others := by
  induction hits generalizing position with
  | nil => rfl
  | cons first later inductionHypothesis =>
    obtain ⟨gap, hit⟩ := first
    rw [List.cons_append, locateHits, locateHits, inductionHypothesis, Split.render_cons,
      Position.after_append, Position.after_append, List.cons_append]

/-- More characters in front of a gap move the places behind them. -/
theorem locateHits_gap (pattern : Pattern α) (position : Position) (shown gap : List Char) (hit : α)
    (others : List (List Char × α)) :
    pattern.locateHits position ((shown ++ gap, hit) :: others) =
      pattern.locateHits (position.after shown) ((gap, hit) :: others) := by
  rw [locateHits, locateHits, Position.after_append]

/-- The places in joined cuts are those in the first and, from behind it, those in the second. -/
theorem locateHits_joined (pattern : Pattern α) (position : Position) (first second : Split α) :
    pattern.locateHits position (first.append second).hits =
      pattern.locateHits position first.hits ++
        pattern.locateHits (position.after (first.render pattern.text)) second.hits := by
  obtain ⟨hits, tail⟩ := first
  obtain ⟨others, behind⟩ := second
  cases others with
  | nil => simp [Split.append, locateHits]
  | cons next later =>
    obtain ⟨gap, hit⟩ := next
    have shown : (⟨hits, []⟩ : Split α).render pattern.text ++ tail =
        (⟨hits, tail⟩ : Split α).render pattern.text := by simp [Split.render]
    show pattern.locateHits position (hits ++ (tail ++ gap, hit) :: later) = _
    rw [locateHits_append, locateHits_gap, ← Position.after_append, shown]

/-- The places of a text that is parted are those of its first part and, from behind it, those of
the second. -/
theorem Parts.locate {first second : List Char} (parts : pattern.Parts first second)
    (position : Position) : pattern.locate position (first ++ second) =
      pattern.locate position first ++ pattern.locate (position.after first) second := by
  unfold Parts at parts
  rw [Pattern.locate, parts, locateHits_joined, pattern.render_split]
  rfl

/-- Hits with all that stands before them. -/
def befores (pattern : Pattern α) : List (List Char × α) → List (List Char × α)
  | [] => []
  | (gap, hit) :: hits =>
    (gap, hit) :: (pattern.befores hits).map
      (Prod.map (fun before => gap ++ (pattern.text hit ++ before)) id)

/-- A place is where reading what stands before it leads. -/
theorem locateHits_eq (pattern : Pattern α) (position : Position) (hits : List (List Char × α)) :
    pattern.locateHits position hits = (pattern.befores hits).map fun hit =>
      ⟨position.after hit.1, hit.2⟩ := by
  induction hits generalizing position with
  | nil => rfl
  | cons next others inductionHypothesis =>
    obtain ⟨gap, hit⟩ := next
    rw [locateHits, befores, inductionHypothesis, List.map_cons, List.map_map]
    refine congrArg (_ :: ·) (List.map_congr_left fun later _ => ?_)
    simp only [Function.comp_apply, Prod.map_fst, Prod.map_snd, Position.after_append, id_eq]

/-- What stands before a hit is an initial part of the text. -/
theorem prefix_of_mem_befores {pattern : Pattern α} {hits : List (List Char × α)}
    {before : List Char} {hit : α} (member : (before, hit) ∈ pattern.befores hits)
    (tail : List Char) : before <+: (⟨hits, tail⟩ : Split α).render pattern.text := by
  induction hits generalizing before with
  | nil => exact absurd member List.not_mem_nil
  | cons next others inductionHypothesis =>
    obtain ⟨gap, first⟩ := next
    rw [Split.render_cons]
    rcases List.mem_cons.mp member with same | later
    · rw [(Prod.mk.inj same).1]
      exact List.prefix_append _ _
    · obtain ⟨⟨inner, other⟩, within, same⟩ := List.mem_map.mp later
      obtain ⟨rfl, rfl⟩ := Prod.mk.inj same
      exact (List.prefix_append_right_inj _).mpr
        ((List.prefix_append_right_inj _).mpr (inductionHypothesis within))

/-- The places of hits are told by initial parts of the text. -/
theorem exists_before_of_mem_locate {position : Position} {text : List Char} {found : Located α}
    (member : found ∈ pattern.locate position text) :
    ∃ before, before <+: text ∧ found.position = position.after before := by
  rw [locate, locateHits_eq] at member
  obtain ⟨⟨before, hit⟩, within, rfl⟩ := List.mem_map.mp member
  have initial := prefix_of_mem_befores within (pattern.split text).tail
  rw [pattern.render_split text] at initial
  exact ⟨before, initial, rfl⟩

/-- The places of `second` are moved when `first` stands before it. -/
theorem locate_behind (pattern : Pattern α) (first second : List Char) :
    pattern.locate (Position.start.after first) second =
      (pattern.locate Position.start second).map (Located.behind first second) := by
  rw [locate, locate, locateHits_eq, locateHits_eq, List.map_map]
  refine List.map_congr_left fun ⟨before, hit⟩ member => ?_
  have initial := prefix_of_mem_befores member (pattern.split second).tail
  rw [pattern.render_split second] at initial
  exact congrArg (Located.mk · hit) (Position.after_behind first initial)

/-- A search by offset finds the same hit wherever reading begins, if the offsets looked for move
along. -/
theorem find?_locateHits (pattern : Pattern α) {first second : Position} (wanted other : Nat → Bool)
    (same : ∀ size, wanted (first.offset + size) = other (second.offset + size))
    (hits : List (List Char × α)) :
    ((pattern.locateHits first hits).find? fun found => wanted found.position.offset).map
        (·.value) =
      ((pattern.locateHits second hits).find? fun found => other found.position.offset).map
        (·.value) := by
  rw [locateHits_eq, locateHits_eq, List.find?_map, List.find?_map, Option.map_map, Option.map_map]
  have alike : (fun found : Located α => wanted found.position.offset) ∘
      (fun hit : List Char × α => ⟨first.after hit.1, hit.2⟩) =
        (fun found : Located α => other found.position.offset) ∘
          fun hit : List Char × α => ⟨second.after hit.1, hit.2⟩ := by
    funext ⟨before, hit⟩
    simp only [Function.comp_apply, Position.offset_after, same]
  exact congrArg (fun search => ((pattern.befores hits).find? search).map (·.2)) alike

end Pattern

namespace Tag

/-- The spreads of a tag begin as far behind the tag wherever it stands. -/
theorem offsetSpreads_add (start size : Nat) (body : List Piece) :
    offsetSpreads (start + size) body =
      (offsetSpreads size body).map (Prod.map (start + ·) id) := by
  induction body generalizing size with
  | nil => rfl
  | cons piece rest inductionHypothesis =>
    rw [offsetSpreads, offsetSpreads, Nat.add_assoc, inductionHypothesis]
    cases piece.spread? <;> rfl

theorem spreadsFrom_add (start size : Nat) (tag : Tag) : tag.spreadsFrom (start + size) =
    (tag.spreadsFrom size).map (Prod.map (start + ·) id) := by
  rw [spreadsFrom, Nat.add_assoc, offsetSpreads_add]
  rfl

/-- Whether an offset is covered depends on how far behind the start of the tag it lies. -/
theorem coversOffset_add (start size : Nat) (tag : Tag) :
    tag.coversOffset start (start + size) = tag.coversOffset 0 size := by
  have moved := tag.spreadsFrom_add start 0
  rw [Nat.add_zero] at moved
  rw [coversOffset, moved, coversOffset, List.any_map]
  refine congrArg (List.any (tag.spreadsFrom 0)) (funext fun ⟨offset, spread⟩ => ?_)
  simp [Nat.add_assoc]

/-- The faults of a tag are the same wherever it stands. -/
theorem faults_at (ids : InstanceIds) (tag : Tag) (first second : Position) :
    faults ids ⟨first, tag⟩ = faults ids ⟨second, tag⟩ := by
  have stray : strayTarget? ⟨first, tag⟩ = strayTarget? ⟨second, tag⟩ := by
    refine CssSpread.pattern.find?_locateHits (fun offset => !tag.coversOffset first.offset offset)
      (fun offset => !tag.coversOffset second.offset offset) ?_ _
    intro size
    rw [coversOffset_add, coversOffset_add]
  simp only [faults, commonFaults, stray]

end Tag

end ScopedMarkup
