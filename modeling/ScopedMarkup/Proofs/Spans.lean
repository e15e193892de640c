import Mathlib.Data.List.Pairwise
import ScopedMarkup.Proofs.Ranges
import ScopedMarkup.Proofs.Sources

/-!
# What records of tags say of a source

The records of a scan describe the source that was scanned. They lie in order and apart, between
characters of the source, and what stands in the range of each is a tag of the recorded name and
kind with the recorded spreads. Every spread ends where its braces balance in the source.

The scan overlooks nothing: wherever a `<` has an ASCII letter behind it, a tag is read, unless
one that begins before takes the place in.
-/

namespace ScopedMarkup

/-- What the record of a tag says of its source. -/
structure TagSpan.Describes (span : TagSpan) (source : List Char) : Prop where
  /-- The name begins with a letter of the kind. -/
  initial : ∃ first others, span.name.toList = first :: others ∧ span.kind.isInitial first = true
  /-- No blank, `/` or `>` stands in the name. -/
  named : ∀ c ∈ span.name.toList, isNameChar c = true
  /-- In its range stands a `<` with the name, which ends there. If the tag is closed, its last
  character is `>`, and otherwise nothing stands behind it. -/
  written : ∃ before rest behind, source = before ++ ('<' :: span.name.toList ++ rest ++ behind) ∧
    Text.byteLength before = span.start ∧
      span.start + Text.byteLength ('<' :: span.name.toList ++ rest) = span.stop ∧
        (∀ c ∈ (rest ++ behind).head?, isNameChar c = false) ∧
          (span.closed = true → rest.getLast? = some '>') ∧ (span.closed = false → behind = [])
  /-- The spreads lie in order and apart. -/
  ordered : span.spreads.Pairwise fun first second => first.stop ≤ second.start
  /-- They lie behind the name, within the tag. -/
  within : ∀ spread ∈ span.spreads,
    span.start + Text.byteLength ('<' :: span.name.toList) ≤ spread.start ∧
      spread.start < spread.stop ∧ spread.stop ≤ span.stop
  /-- Each begins with a `{` of the source and ends behind the `}` that balances it. -/
  balanced : ∀ spread ∈ span.spreads,
    (∃ before behind, source = before ++ '{' :: behind ∧ Text.byteLength before = spread.start) ∧
      Braces.endOffset? source spread.start = some spread.stop

/-- What the records of a scan say of the source. -/
structure TagSpan.Cover (spans : List TagSpan) (source : List Char) : Prop where
  /-- Each describes the source. -/
  describes : ∀ span ∈ spans, span.Describes source
  /-- They lie in order and apart. -/
  ordered : spans.Pairwise fun first second => first.stop ≤ second.start
  /-- Each has a range within the source. -/
  within : ∀ span ∈ spans, span.start < span.stop ∧ span.stop ≤ Text.byteLength source
  /-- Only the last tag can be unclosed, and it ends with the source then. -/
  last : ∀ front span back, spans = front ++ span :: back → span.closed = false →
    back = [] ∧ span.stop = Text.byteLength source
  /-- A `<` with an ASCII letter behind it lies in the range of exactly one tag, and so does the
  letter. -/
  covered : ∀ before c behind, source = before ++ '<' :: c :: behind → c.isAlpha = true →
    (∃! span, span ∈ spans ∧ span.start ≤ Text.byteLength before ∧
        Text.byteLength before < span.stop) ∧
      ∀ span ∈ spans, span.start ≤ Text.byteLength before → Text.byteLength before < span.stop →
        Text.byteLength (before ++ ['<', c]) ≤ span.stop

namespace Piece

/-- A group that is read is settled, also where nothing stands behind it. -/
theorem settled_of_read_group {input inner : List Char} (read : read? input = some (group inner)) :
    (group inner).Settled := by
  rcases settled_of_read read with settled | whole
  · exact settled
  · rw [whole, text, List.cons_append, read?, if_neg (by decide), if_neg (by decide),
      if_pos rfl] at read
    obtain ⟨⟨same, behind⟩, balanced, sameGroup⟩ := Option.map_eq_some_iff.mp read
    obtain rfl := Piece.group.inj sameGroup
    exact fun more => Braces.readInner_inner balanced more

/-- A spread is a group. -/
theorem eq_group_of_spread {piece : Piece} {spread : Spread} (same : piece.spread? = some spread) :
    piece = group spread.inner := by
  have written := (text_of_spread same).1
  cases piece with
  | plain c => exact nomatch same
  | quoted quote body closed => exact nomatch same
  | group inner => rw [List.append_cancel_right (List.cons.inj written).2]

end Piece

namespace Tag

variable {tag : Tag} {behind : List Char}

/-- The spreads of a tag that stands are settled, whether or not it is closed. -/
theorem Stands.settled_spread (stands : tag.Stands behind) {piece : Piece} (member : piece ∈ tag.body)
    {spread : Spread} (same : piece.spread? = some spread) : piece.Settled := by
  obtain ⟨_, _, body, _⟩ := stands_iff.mp stands
  rw [← body] at member
  obtain ⟨input, read⟩ := Pattern.exists_read_of_mem_many member
  rw [Piece.eq_group_of_spread same] at read ⊢
  exact Piece.settled_of_read_group read

/-- A spread of a tag that stands behind a text ends where its braces balance. -/
theorem Stands.endOffset_spread (stands : tag.Stands behind) {before : List Char} {offset : Nat}
    {spread : Spread} (member : (offset, spread) ∈ tag.spreadsFrom (Text.byteLength before)) :
    (∃ front back, before ++ (tag.text ++ behind) = front ++ '{' :: back ∧
        Text.byteLength front = offset) ∧
      Braces.endOffset? (before ++ (tag.text ++ behind)) offset =
        some (offset + Text.byteLength spread.text) := by
  obtain ⟨front, piece, back, cutAt, same, rfl⟩ := piece_of_mem_offsetSpreads member
  obtain ⟨inner, expression⟩ := spread
  have settled := stands.settled_spread (by rw [cutAt]; simp) same
  obtain rfl := Piece.eq_group_of_spread same
  have joined : before ++ (tag.text ++ behind) = before ++ tag.head ++ front.flatMap Piece.text ++
      ('{' :: inner ++ ['}']) ++ (back.flatMap Piece.text ++ tag.ending.text ++ behind) := by
    rw [text_around cutAt]
    simp [Piece.text]
  have placed : Text.byteLength (before ++ tag.head ++ front.flatMap Piece.text) =
      Text.byteLength before + Text.byteLength tag.head +
        Text.byteLength (front.flatMap Piece.text) := by
    rw [Text.byteLength_append, Text.byteLength_append]
  constructor
  · refine ⟨before ++ tag.head ++ front.flatMap Piece.text, inner ++ ['}'] ++
      (back.flatMap Piece.text ++ tag.ending.text ++ behind), ?_, placed⟩
    rw [joined]
    simp
  · refine Braces.endOffset?_eq_some_iff.mpr ⟨_, inner, _, joined, ?_, placed, ?_⟩
    · have balanced := settled (back.flatMap Piece.text ++ tag.ending.text ++ behind)
      rwa [List.append_assoc]
    · rw [Text.byteLength_append, placed]
      rfl

end Tag

/-- A scanned tag stands where its record says. -/
theorem exists_around_of_scanned {source : List Char} {found : Located Tag}
    (scanned : found ∈ scanTags source) :
    ∃ before behind, source = before ++ (found.value.text ++ behind) ∧ found.value.Stands behind ∧
      Text.byteLength before = found.position.offset := by
  obtain ⟨before, behind, joined, reading, placed⟩ := Pattern.exists_around_of_mem_locate scanned
  refine ⟨before, behind, joined, reading, ?_⟩
  rw [placed, Position.offset_after]
  exact (Nat.zero_add _).symm

/-- The record of a scanned tag describes the source. -/
theorem describes_of_scanned {source : List Char} {found : Located Tag}
    (scanned : found ∈ scanTags source) : (TagSpan.ofLocated found).Describes source := by
  obtain ⟨before, behind, rfl, stands, placed⟩ := exists_around_of_scanned scanned
  obtain ⟨⟨first, others, spelled, isInitial, _⟩, nameEnds, _⟩ := Tag.stands_iff.mp stands
  have name : (TagSpan.ofLocated found).name.toList = found.value.name := String.toList_ofList
  have whole : found.value.text = '<' :: found.value.name ++ found.value.rest :=
    Tag.text_eq_head_append _
  have spreads : ∀ spread ∈ (TagSpan.ofLocated found).spreads, ∃ offset inner,
      (offset, inner) ∈ found.value.spreadsFrom found.position.offset ∧
        spread = inner.spanFrom offset := by
    intro spread member
    obtain ⟨⟨offset, inner⟩, inSpreads, rfl⟩ := List.mem_map.mp member
    exact ⟨offset, inner, inSpreads, rfl⟩
  refine ⟨⟨first, others, by rw [name, spelled], isInitial⟩, ?_, ?_, ?_, ?_, ?_⟩
  · rw [name]
    exact stands.named.name_named
  · rw [name]
    refine ⟨before, found.value.rest, behind, by rw [whole], placed, by rw [← whole]; rfl,
      nameEnds, ?_, stands.behind_eq_nil⟩
    intro closed
    rw [Tag.rest, (stands.settled closed).closed, List.getLast?_append]
    rfl
  · refine List.pairwise_map.mpr ?_
    exact Tag.pairwise_offsetSpreads _ _
  · intro spread member
    obtain ⟨offset, inner, inSpreads, rfl⟩ := spreads spread member
    obtain ⟨early, late⟩ := Tag.within_of_mem_offsetSpreads inSpreads
    have positive : 0 < Text.byteLength inner.text := Text.byteLength_pos (List.cons_ne_nil _ _)
    have size : Text.byteLength found.value.text = Text.byteLength found.value.head +
        Text.byteLength (found.value.body.flatMap Piece.text) +
          Text.byteLength found.value.ending.text := by
      rw [Tag.text, Text.byteLength_append, Text.byteLength_append]
    rw [name]
    refine ⟨early, ?_, ?_⟩
    · show offset < offset + Text.byteLength inner.text
      omega
    · show offset + Text.byteLength inner.text ≤
        found.position.offset + Text.byteLength found.value.text
      omega
  · intro spread member
    obtain ⟨offset, inner, inSpreads, rfl⟩ := spreads spread member
    rw [← placed] at inSpreads
    exact stands.endOffset_spread inSpreads

/-- The tags of a scan lie in order and apart. -/
theorem pairwise_scanned (source : List Char) :
    ((scanTags source).map TagSpan.ofLocated).Pairwise fun first second =>
      first.stop ≤ second.start :=
  List.pairwise_map.mpr (Tag.pattern.pairwise_locate Position.start source)

/-- Each tag of a scan takes up some bytes of the source. -/
theorem within_of_scanned {source : List Char} {found : Located Tag}
    (scanned : found ∈ scanTags source) :
    found.position.offset < Tag.pattern.stopOf found ∧
      Tag.pattern.stopOf found ≤ Text.byteLength source := by
  have within := (Pattern.within_of_mem_locate scanned).2
  exact ⟨Pattern.start_lt_stopOf scanned, by simpa [Position.start] using within⟩

/-- Tags in whose ranges one offset lies are one tag. -/
theorem eq_of_offset {spans : List TagSpan}
    (ordered : spans.Pairwise fun first second => first.stop ≤ second.start) {first second : TagSpan}
    (memberFirst : first ∈ spans) (memberSecond : second ∈ spans) {offset : Nat}
    (inFirst : first.start ≤ offset ∧ offset < first.stop)
    (inSecond : second.start ≤ offset ∧ offset < second.stop) : first = second := by
  by_contra different
  have symmetric : Std.Symm fun one other : TagSpan =>
      one.stop ≤ other.start ∨ other.stop ≤ one.start := ⟨fun _ _ => Or.symm⟩
  have apart : spans.Pairwise fun one other => one.stop ≤ other.start ∨ other.stop ≤ one.start :=
    ordered.imp Or.inl
  have disjoint := apart.forall memberFirst memberSecond different
  omega

/-- Where a `<` has an ASCII letter behind it, a tag takes in both. -/
theorem exists_scanned_of_letter (before : List Char) {c : Char} (behind : List Char)
    (letter : c.isAlpha = true) :
    ∃ found ∈ scanTags (before ++ '<' :: c :: behind),
      found.position.offset ≤ Text.byteLength before ∧
        Text.byteLength (before ++ ['<', c]) ≤ Tag.pattern.stopOf found := by
  have starts : Text.startsTag ('<' :: c :: behind) = true := letter
  obtain ⟨tag, read⟩ := Option.isSome_iff_exists.mp (Tag.read_isSome starts)
  have reads : Tag.pattern.read? ('<' :: c :: behind) = some tag := read
  obtain ⟨found, member, covers⟩ := Tag.pattern.exists_covering Position.start before reads
  obtain ⟨more, after, joined, present, reading, final, early, late⟩ := covers.bytes
  have stands : found.value.Stands after := reading
  refine ⟨found, member, by simpa [Position.start] using early, ?_⟩
  rw [← late, Text.byteLength_append]
  have atStart : Position.start.offset = 0 := rfl
  cases more with
  | nil => exact absurd rfl present
  | cons first others =>
    obtain ⟨rfl, rest⟩ := List.cons.inj joined
    cases others with
    | nil =>
      -- No tag ends with the `<` of a start.
      exfalso
      have ends : found.value.text.getLast? = some '<' :=
        (Text.getLast?_of_suffix final present).trans rfl
      rcases stands.edge with angle | nothing
      · rw [Tag.text_eq_head_append, List.getLast?_append, angle] at ends
        exact absurd (Option.some.inj ends) (by decide)
      · rw [nothing] at rest
        exact List.cons_ne_nil _ _ rest
    | cons next others =>
      obtain ⟨rfl, _⟩ := List.cons.inj rest
      rw [Text.byteLength_cons, Text.byteLength_cons, Text.byteLength_cons, Text.byteLength_cons,
        Text.byteLength_nil]
      omega

/-- Behind an unclosed tag the source ends. -/
theorem stop_of_unclosed {source : List Char} {found : Located Tag}
    (scanned : found ∈ scanTags source) (unclosed : found.value.isClosed = false) :
    Tag.pattern.stopOf found = Text.byteLength source := by
  obtain ⟨before, behind, joined, stands, placed⟩ := exists_around_of_scanned scanned
  show found.position.offset + Text.byteLength found.value.text = _
  rw [joined, stands.behind_eq_nil unclosed, List.append_nil, Text.byteLength_append, placed]

/-- No tag is read behind an unclosed one. -/
theorem eq_nil_of_unclosed {source : List Char} {front back : List TagSpan} {span : TagSpan}
    (cutAt : (scanTags source).map TagSpan.ofLocated = front ++ span :: back)
    (stop : span.stop = Text.byteLength source) : back = [] := by
  cases back with
  | nil => rfl
  | cons next others =>
    have inSpans : next ∈ (scanTags source).map TagSpan.ofLocated := by
      rw [cutAt]
      simp
    obtain ⟨later, scanned, rfl⟩ := List.mem_map.mp inSpans
    have ordered := pairwise_scanned source
    rw [cutAt] at ordered
    have behindIt := List.rel_of_pairwise_cons (List.pairwise_append.mp ordered).2.1
      (List.mem_cons_self (a := TagSpan.ofLocated later))
    have bounds := within_of_scanned scanned
    have startsLate : Text.byteLength source ≤ later.position.offset := stop ▸ behindIt
    omega

/-- The records of a scan describe the source: in order and apart, each between characters and
with a tag of its name, kind and spreads in its range. Only the last can be unclosed. Every `<`
with an ASCII letter behind it lies in the range of exactly one of them. -/
theorem scan_covers_source (source : List Char) :
    TagSpan.Cover ((scanTags source).map TagSpan.ofLocated) source := by
  have ordered := pairwise_scanned source
  refine ⟨?_, ordered, ?_, ?_, ?_⟩
  · intro span member
    obtain ⟨found, scanned, rfl⟩ := List.mem_map.mp member
    exact describes_of_scanned scanned
  · intro span member
    obtain ⟨found, scanned, rfl⟩ := List.mem_map.mp member
    exact within_of_scanned scanned
  · intro front span back cutAt unclosed
    have member : span ∈ (scanTags source).map TagSpan.ofLocated := by
      rw [cutAt]
      simp
    obtain ⟨found, scanned, rfl⟩ := List.mem_map.mp member
    have stop := stop_of_unclosed scanned unclosed
    exact ⟨eq_nil_of_unclosed cutAt stop, stop⟩
  · rintro before c behind rfl letter
    obtain ⟨found, scanned, early, late⟩ := exists_scanned_of_letter before behind letter
    have member := List.mem_map_of_mem (f := TagSpan.ofLocated) scanned
    have here : (TagSpan.ofLocated found).start ≤ Text.byteLength before ∧
        Text.byteLength before < (TagSpan.ofLocated found).stop := by
      have positive : 0 < Text.byteLength ['<', c] := Text.byteLength_pos (List.cons_ne_nil _ _)
      rw [Text.byteLength_append] at late
      exact ⟨early, by show _ < Tag.pattern.stopOf found; omega⟩
    constructor
    · refine ⟨TagSpan.ofLocated found, ⟨member, here⟩, ?_⟩
      rintro other ⟨inSpans, bounds⟩
      exact eq_of_offset ordered inSpans member bounds here
    · intro other inSpans begun unended
      rw [eq_of_offset ordered inSpans member ⟨begun, unended⟩ here]
      exact late

end ScopedMarkup
