import Mathlib.Data.List.Sort
import ScopedMarkup.Proofs.Spans

/-!
# What removal takes from a tag, and what its record lists

Diagnostics read the spreads of a tag off its pieces, while removal finds them in the flat text and
takes each out up to the brace that balances its own. If a tag nests no braces in a spread that
mentions `cssTarget`, and no flat spread strays, the two agree: each removal takes out exactly one
spread that the record lists, and no two take out the same. This holds of unclosed tags as well.

What is left is the tag without some of these spreads and without the blanks directly before them.
-/

namespace ScopedMarkup

/-- A part of a text that ends with something that is removed. -/
structure Deletion where
  /-- What is kept. -/
  kept : List Char
  /-- The blanks between what is kept and what is removed. -/
  blanks : List Char
  /-- What is removed. -/
  removed : List Char

namespace Deletion

/-- The part as it was written. -/
def text (deletion : Deletion) : List Char :=
  deletion.kept ++ (deletion.blanks ++ deletion.removed)

/-- The byte ranges of what is removed, when the first part begins at an offset. -/
def ranges : (offset : Nat) → List Deletion → List (Nat × Nat)
  | _, [] => []
  | offset, deletion :: rest =>
    let start := offset + Text.byteLength (deletion.kept ++ deletion.blanks)
    let stop := start + Text.byteLength deletion.removed
    (start, stop) :: ranges stop rest

/-- Whether what is removed takes along the blanks before it, and all of them. -/
structure TakesBlanks (deletion : Deletion) : Prop where
  /-- Blanks are blank. -/
  blank : ∀ c ∈ deletion.blanks, Text.isUnicodeBlank c = true
  /-- No blank ends what is kept. -/
  solid : ∀ c ∈ deletion.kept.getLast?, Text.isUnicodeBlank c = false

end Deletion

/-- No blank ends a trimmed text. -/
theorem Text.isUnicodeBlank_of_getLast_trimEnd {text : List Char} {c : Char}
    (last : (trimEnd text).getLast? = some c) : isUnicodeBlank c = false := by
  rw [trimEnd, List.getLast?_reverse] at last
  have stops := List.head?_dropWhile_not isUnicodeBlank text.reverse
  rw [last] at stops
  simpa using stops

/-- The byte ranges that are removed from a text that begins at a place. -/
def removedRanges (position : Position) (text : List Char) : List (Nat × Nat) :=
  (removals.locate position text).map fun hit => (hit.position.offset, removals.stopOf hit)

/-- The byte range of a recorded spread. -/
def SpreadSpan.range (span : SpreadSpan) : Nat × Nat := (span.start, span.stop)

/-- Removal takes out the removed ranges with the blanks before them, and keeps the rest. -/
theorem exists_deletions (position : Position) (text : List Char) :
    ∃ deletions tail, text = deletions.flatMap Deletion.text ++ tail ∧
      withoutSpreads text = deletions.flatMap Deletion.kept ++ tail ∧
        Deletion.ranges position.offset deletions = removedRanges position text ∧
          ∀ deletion ∈ deletions, deletion.TakesBlanks := by
  have whole := removals.render_split text
  rw [withoutSpreads, removedRanges, Pattern.locate]
  generalize removals.split text = cut at whole
  obtain ⟨hits, tail⟩ := cut
  subst whole
  induction hits generalizing position with
  | nil => exact ⟨[], tail, rfl, rfl, rfl, by simp⟩
  | cons hit others inductionHypothesis =>
    obtain ⟨gap, removed⟩ := hit
    obtain ⟨blanks, spelled, blank⟩ := Text.exists_blanks gap
    obtain ⟨deletions, left, joined, kept, ranges, takes⟩ :=
      inductionHypothesis ((position.after gap).after removed)
    refine ⟨⟨Text.trimEnd gap, blanks, removed⟩ :: deletions, left, ?_, ?_, ?_, ?_⟩
    · rw [Split.render_cons, joined]
      simp only [List.flatMap_cons, Deletion.text, List.append_assoc]
      rw [← List.append_assoc _ blanks, ← spelled]
      rfl
    · simp only [List.flatMap_cons, List.append_assoc]
      rw [kept]
    · rw [Position.offset_after, Position.offset_after] at ranges
      rw [Deletion.ranges, ← spelled]
      simp only [ranges, Pattern.locateHits, List.map_cons, Pattern.stopOf, Position.offset_after]
      rfl
    · intro deletion member
      rcases List.mem_cons.mp member with rfl | later
      · exact ⟨blank, fun c last => Text.isUnicodeBlank_of_getLast_trimEnd last⟩
      · exact takes deletion later

/-- Ranges that begin in order are some of others that do, if they are among them. -/
theorem sublist_of_ordered {ranges others : List (Nat × Nat)}
    (ordered : ranges.Pairwise fun first second => first.1 < second.1)
    (othersOrdered : others.Pairwise fun first second => first.1 < second.1)
    (among : ranges ⊆ others) : ranges.Sublist others := by
  have irreflexive : Std.Irrefl fun first second : Nat × Nat => first.1 < second.1 :=
    ⟨fun range => Nat.lt_irrefl range.1⟩
  have antisymmetric : Std.Antisymm fun first second : Nat × Nat => first.1 < second.1 :=
    ⟨fun first second before behind => absurd before (Nat.lt_asymm behind)⟩
  exact List.sublist_of_subperm_of_pairwise (List.subperm_of_subset ordered.nodup among) ordered
    othersOrdered

namespace Tag

/-- A spread that is a piece is listed with the bytes before it. -/
theorem mem_offsetSpreads_of_piece {start : Nat} {front back : List Piece} {piece : Piece}
    {spread : Spread} (same : piece.spread? = some spread) :
    (start + Text.byteLength (front.flatMap Piece.text), spread) ∈
      offsetSpreads start (front ++ piece :: back) := by
  induction front generalizing start with
  | nil =>
    rw [List.nil_append, offsetSpreads, same]
    exact List.mem_cons_self
  | cons first others inductionHypothesis =>
    have later := @inductionHypothesis (start + Text.byteLength first.text)
    rw [List.cons_append, offsetSpreads, List.flatMap_cons, Text.byteLength_append, ← Nat.add_assoc]
    cases first.spread? with
    | none => exact later
    | some _ => exact List.mem_cons_of_mem _ later

/-- What is removed from a tag is a spread that mentions `cssTarget`, from its first byte to its
last. -/
theorem removal_is_spread {found : Located Tag} {behind : List Char}
    (stands : found.value.Stands behind) (unstrayed : strayTarget? found = none)
    (tame : ∀ piece ∈ found.value.body, piece.Tame) {hit : Located (List Char)}
    (member : hit ∈ removals.locate found.position found.value.text) :
    ∃ spread, (hit.position.offset, spread) ∈ found.value.spreadsFrom found.position.offset ∧
      spread.mentionsTarget = true ∧ hit.value = spread.text := by
  obtain ⟨before, after, joined, reading, placed⟩ := Pattern.exists_around_of_mem_locate member
  have reads : removal? (hit.value ++ after) = some hit.value := reading
  have isRead : (CssSpread.read? (hit.value ++ after)).isSome = true :=
    Option.isSome_iff_exists.mpr (exists_removal_iff.mp ⟨_, reads⟩)
  obtain ⟨front, piece, back, cutAt, forwards, rfl⟩ := read_at_piece unstrayed tame joined isRead
  obtain ⟨spread, same, mentions⟩ := Piece.forwards_iff.mp forwards
  have settled := stands.settled_spread (by rw [cutAt]; simp) same
  have written := (Piece.text_of_spread same).1
  have pieceFirst : hit.value ++ after =
      piece.text ++ (back.flatMap Piece.text ++ found.value.ending.text) :=
    List.append_cancel_left (joined.symm.trans (text_around cutAt))
  have flat : piece.isFlat = true := by
    obtain ⟨css, read⟩ := Option.isSome_iff_exists.mp isRead
    rw [pieceFirst] at read
    exact Piece.isFlat_of_read same read
  have removed := settled.removal flat (back.flatMap Piece.text ++ found.value.ending.text)
  rw [← pieceFirst, reads] at removed
  refine ⟨spread, ?_, mentions, (Option.some.inj removed).trans written⟩
  rw [placed, Position.offset_after, Text.byteLength_append, ← Nat.add_assoc, spreadsFrom, cutAt]
  exact mem_offsetSpreads_of_piece same

/-- A tag that breaks neither of two rules opens no stray spread and nests no braces. -/
theorem tame_of_faults {ids : InstanceIds} {found : Located Tag}
    (unexempt : found.value.isExempt = false)
    (allowed : ∀ fault ∈ faults ids found, fault.rule ≠ .nestedTarget ∧ fault.rule ≠ .strayTarget) :
    strayTarget? found = none ∧ ∀ piece ∈ found.value.body, piece.Tame := by
  rw [faults, if_neg (by simp [unexempt])] at allowed
  constructor
  · cases stray : strayTarget? found with
    | none => rfl
    | some css =>
      refine absurd rfl (allowed (.strayTarget css) (List.mem_append_left _ ?_)).2
      simp [commonFaults, stray]
  · refine tame_of_nestedTarget fun forwards => ?_
    cases nested : found.value.nestedTarget? with
    | none => rfl
    | some spread =>
      refine absurd rfl (allowed (.nestedTarget spread) (List.mem_append_right _ ?_)).1
      simp [forwards, forwardingFaults, nested]

end Tag

/-- The ranges that are removed from a tag are some of those of the recorded spreads that mention
`cssTarget`, each once and in order. -/
theorem removedRanges_sublist {source : List Char} {found : Located Tag}
    (scanned : found ∈ scanTags source) (unstrayed : Tag.strayTarget? found = none)
    (tame : ∀ piece ∈ found.value.body, piece.Tame) :
    (removedRanges found.position found.value.text).Sublist
      (((TagSpan.ofLocated found).spreads.filter (·.mentionsCssTarget)).map SpreadSpan.range) := by
  have described := describes_of_scanned scanned
  refine sublist_of_ordered ?_ ?_ ?_
  · refine List.pairwise_map.mpr ((removals.pairwise_locate _ _).imp_of_mem ?_)
    intro first second member _ before
    exact Nat.lt_of_lt_of_le (Pattern.start_lt_stopOf member) before
  · refine List.pairwise_map.mpr ((described.ordered.filter _).imp_of_mem ?_)
    intro first second member _ before
    exact Nat.lt_of_lt_of_le (described.within first (List.mem_of_mem_filter member)).2.1 before
  · intro range member
    obtain ⟨hit, located, rfl⟩ := List.mem_map.mp member
    obtain ⟨spread, listed, mentions, same⟩ :=
      Tag.removal_is_spread (stands_of_scanned scanned) unstrayed tame located
    refine List.mem_map.mpr ⟨spread.spanFrom hit.position.offset, List.mem_filter.mpr
      ⟨List.mem_map.mpr ⟨_, listed, rfl⟩, mentions⟩, ?_⟩
    have size : Text.byteLength (removals.text hit.value) = Text.byteLength spread.text :=
      congrArg Text.byteLength same
    rw [Pattern.stopOf, size]
    rfl

/-- In a tag that gets an attribute and breaks neither the rule of nested braces nor the one of
stray spreads, each removal takes out a recorded spread that mentions `cssTarget`, from its start to
its end, and no two take out the same one. So the tag without its spreads is the tag with some of
them deleted, each with the blanks directly before it. -/
theorem removals_are_recorded {ids : InstanceIds} {file : String} {source : List Char}
    {found : Located Tag} (scanned : found ∈ scanTags source)
    (unexempt : found.value.isExempt = false)
    (allowed : ∀ diagnostic ∈ (Tag.faults ids found).map (Fault.diagnostic file found),
      diagnostic.code ≠ Rule.nestedTarget.code ∧ diagnostic.code ≠ Rule.strayTarget.code) :
    ∃ spreads : List SpreadSpan, spreads.Sublist (TagSpan.ofLocated found).spreads ∧
      (∀ spread ∈ spreads, spread.mentionsCssTarget = true) ∧
        removedRanges found.position found.value.text = spreads.map SpreadSpan.range ∧
      ∃ deletions tail, found.value.text = deletions.flatMap Deletion.text ++ tail ∧
        withoutSpreads found.value.text = deletions.flatMap Deletion.kept ++ tail ∧
          Deletion.ranges found.position.offset deletions = spreads.map SpreadSpan.range ∧
            ∀ deletion ∈ deletions, deletion.TakesBlanks := by
  have rules : ∀ fault ∈ Tag.faults ids found,
      fault.rule ≠ .nestedTarget ∧ fault.rule ≠ .strayTarget := by
    intro fault member
    obtain ⟨unnested, unstrayed⟩ := allowed _ (List.mem_map_of_mem member)
    exact ⟨fun same => unnested (congrArg Rule.code same),
      fun same => unstrayed (congrArg Rule.code same)⟩
  obtain ⟨unstrayed, tame⟩ := Tag.tame_of_faults unexempt rules
  obtain ⟨spreads, among, same⟩ :=
    List.sublist_map_iff.mp (removedRanges_sublist scanned unstrayed tame)
  obtain ⟨deletions, tail, joined, kept, ranges, takes⟩ :=
    exists_deletions found.position found.value.text
  refine ⟨spreads, among.trans List.filter_sublist, ?_, same, deletions, tail, joined, kept,
    ranges.trans same, takes⟩
  intro spread member
  exact (List.mem_filter.mp (among.subset member)).2

/-- A tag with two spreads of which one is removed, a shorthand object. -/
theorem removals_are_recorded_here :
    ∃ found ∈ scanTags "<p {...a} {...{cssTarget}}>".toList,
      ∃ spreads : List SpreadSpan, spreads.Sublist (TagSpan.ofLocated found).spreads ∧
        spreads.map SpreadSpan.range = [(10, 26)] ∧
        withoutSpreads found.value.text = "<p {...a}>".toList := by
  have first := List.head_mem
    (by decide +kernel : scanTags "<p \x7b...a\x7d \x7b...\x7bcssTarget\x7d\x7d>".toList ≠ [])
  obtain ⟨spreads, among, _, ranges, _⟩ := @removals_are_recorded ⟨[], by decide⟩ "f" _ _ first
    (by decide +kernel) (by decide +kernel)
  exact ⟨_, first, spreads, among, ranges.symm.trans (by decide +kernel), by decide +kernel⟩

end ScopedMarkup
