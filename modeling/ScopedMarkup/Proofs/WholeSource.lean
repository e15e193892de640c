import ScopedMarkup.Proofs.ClosedSpreads

/-!
# Scoping follows the scan

The passes read flat text, the scan reads quotes and braces. On a source without faults whose
tags open spreads only where the scan records them, both see the same tags: each pass is
confined to the scanned tags, since every spread that is opened in a tag is closed there. The
four passes together then write each tag from the pieces that the scan found, and keep the
text between.
-/

namespace ScopedMarkup

namespace Spread

/-- Whether `cssTarget` stands behind the dots of a spread with no `}` in between, where the
dots stand behind script blanks. -/
def IsFlat (spread : Spread) : Prop :=
  ∃ blanks lead rest, spread.text = '{' :: blanks ++ '.' :: '.' :: '.' :: (lead ++ cssTargetName ++ rest) ∧
    (∀ c ∈ blanks, Text.isScriptBlank c = true) ∧ '}' ∉ lead

/-- A spread is read as a flat spread exactly if `cssTarget` stands so in it. -/
theorem isFlat_iff {spread : Spread} :
    spread.IsFlat ↔ (CssSpread.read? spread.text).isSome = true := by
  constructor
  · rintro ⟨blanks, lead, rest, spelled, blank, unclosed⟩
    have closed : '}' ∈ rest := by
      have ends : spread.text.getLast? = some '}' := by
        rw [Spread.text, List.getLast?_append]
        rfl
      have spelledOut : spread.text =
          ('{' :: blanks ++ '.' :: '.' :: '.' :: (lead ++ cssTargetName)) ++ rest := by
        rw [spelled]
        simp
      cases rest with
      | nil =>
        rw [spelledOut, List.append_nil] at ends
        have last : cssTargetName.getLast? = some 't' := by rfl
        simp [List.getLast?_append, List.getLast?_cons, last] at ends
      | cons c others =>
        rw [spelledOut, List.getLast?_append] at ends
        exact List.mem_of_getLast? (by simpa [List.getLast?_cons] using ends)
    obtain ⟨early, late, rfl, free⟩ := List.eq_append_cons_of_mem closed
    refine Option.isSome_iff_exists.mpr ⟨⟨blanks, lead ++ cssTargetName ++ early⟩,
      CssSpread.read_eq_some_iff.mpr ⟨⟨late, ?_⟩, blank, ?_, ⟨lead, early, rfl⟩⟩⟩
    · rw [spelled, CssSpread.text]
      simp
    · simp only [List.mem_append, not_or]
      exact ⟨⟨unclosed, by decide⟩, free⟩
  · intro flat
    obtain ⟨found, read⟩ := Option.isSome_iff_exists.mp flat
    obtain ⟨⟨behind, spelled⟩, blank, unclosed, lead, rest, mentioned⟩ :=
      CssSpread.read_eq_some_iff.mp read
    refine ⟨found.blanks, lead, rest ++ '}' :: behind, ?_, blank, ?_⟩
    · rw [spelled, CssSpread.text, ← mentioned]
      simp
    · intro member
      refine unclosed ?_
      rw [← mentioned]
      simp [member]

instance : DecidablePred Spread.IsFlat := fun _ => decidable_of_iff _ isFlat_iff.symm

end Spread

namespace Piece

/-- A piece that is a spread is read as a flat spread exactly if the spread is flat. -/
theorem isFlat_iff {piece : Piece} {spread : Spread} (same : piece.spread? = some spread) :
    piece.isFlat = true ↔ spread.IsFlat := by
  rw [isFlat, (text_of_spread same).1, Spread.isFlat_iff]

/-- A spread that is flat mentions `cssTarget` in its expression. -/
theorem forwards_of_isFlat {piece : Piece} {spread : Spread} (same : piece.spread? = some spread)
    (flat : piece.isFlat = true) : piece.forwards = true := by
  obtain ⟨written, dotted⟩ := text_of_spread same
  obtain ⟨found, read⟩ := Option.isSome_iff_exists.mp flat
  obtain ⟨⟨behind, spelled⟩, blank, _, mentioned⟩ := CssSpread.read_eq_some_iff.mp read
  have undotted : '.' ∉ found.blanks :=
    fun member => absurd (blank '.' member) (by decide)
  have undottedInner : '.' ∉ spread.inner.takeWhile Text.isUnicodeBlank :=
    fun member => absurd (List.mem_takeWhile_imp member) (by decide)
  -- Both readings end the blanks at the first dot, so they agree on what stands behind it.
  have inner : spread.inner.takeWhile Text.isUnicodeBlank ++ '.' :: '.' :: '.' :: spread.expression =
      spread.inner := by
    rw [← dotted]
    exact List.takeWhile_append_dropWhile
  have joined : (spread.inner.takeWhile Text.isUnicodeBlank ++
      '.' :: '.' :: '.' :: spread.expression) ++ ['}'] =
        found.blanks ++ '.' :: '.' :: '.' :: (found.body ++ '}' :: behind) := by
    rw [inner]
    rw [written, Spread.text, CssSpread.text] at spelled
    simpa using spelled
  have first : Text.cutAt? '.' (found.blanks ++ '.' :: '.' :: '.' :: (found.body ++ '}' :: behind)) =
      some (found.blanks, '.' :: '.' :: (found.body ++ '}' :: behind)) :=
    (Text.cutAt?_eq_some_iff ..).mpr ⟨rfl, undotted⟩
  have second : Text.cutAt? '.' (found.blanks ++ '.' :: '.' :: '.' :: (found.body ++ '}' :: behind)) =
      some (spread.inner.takeWhile Text.isUnicodeBlank, '.' :: '.' :: (spread.expression ++ ['}'])) :=
    (Text.cutAt?_eq_some_iff ..).mpr ⟨by rw [← joined]; simp, undottedInner⟩
  have expression : spread.expression ++ ['}'] = found.body ++ '}' :: behind := by
    have same := first.symm.trans second
    simp only [Option.some.injEq, Prod.mk.injEq, List.cons.injEq, true_and] at same
    exact same.2.symm
  have occurs : cssTargetName <:+: spread.expression ++ '}' :: [] := by
    rw [expression]
    exact mentioned.trans (List.prefix_append _ _).isInfix
  refine forwards_iff.mpr ⟨spread, same, (Text.contains_iff _ _).mpr ?_⟩
  rcases Text.infix_of_absent (by decide) occurs with here | nothing
  · exact here
  · exact absurd nothing (by decide)

end Piece

namespace Tag

/-- The text of a tag behind its name without the spreads that mention `cssTarget`, and
without the blanks directly before them. -/
def remainder (tag : Tag) : List Char := Piece.remaining Piece.forwards [] tag.body ++ tag.ending.text

/-- A tag as a scoped source has it: exempt tags are kept, and every other has its name, a
blank, its attribute with the parent's ids if it forwards the scope, and the remainder. -/
def rewritten (ids : InstanceIds) (tag : Tag) : List Char :=
  if tag.isExempt then tag.text
  else tag.head ++ ' ' :: tag.scopeAttribute ids tag.forwardsScope ++ tag.remainder

/-- Whether the tag opens spreads nowhere but at the heads of pieces that are spreads. -/
def OpensAtSpreads (tag : Tag) : Prop :=
  ∀ before inside, tag.text = before ++ inside → CssSpread.Opens inside →
    ∃ front piece back, tag.body = front ++ piece :: back ∧ piece.spread?.isSome = true ∧
      before = tag.head ++ front.flatMap Piece.text

/-- If the record of a tag lists a spread wherever one is opened, the tag opens spreads at
the heads of pieces. -/
theorem opensAtSpreads_of_recorded {found : Located Tag}
    (recorded : ∀ before inside, found.value.text = before ++ inside → CssSpread.Opens inside →
      ∃ span ∈ (TagSpan.ofLocated found).spreads,
        span.start = (TagSpan.ofLocated found).start + Text.byteLength before) :
    found.value.OpensAtSpreads := by
  intro before inside spelled opens
  obtain ⟨span, member, placed⟩ := recorded before inside spelled opens
  obtain ⟨⟨offset, spread⟩, inSpreads, rfl⟩ := List.mem_map.mp member
  obtain ⟨front, piece, back, cutAt, same, offsetEq⟩ := piece_of_mem_offsetSpreads inSpreads
  refine ⟨front, piece, back, cutAt, by rw [same]; rfl, ?_⟩
  have around := text_around cutAt
  have bytes : Text.byteLength before =
      Text.byteLength (found.value.head ++ front.flatMap Piece.text) := by
    rw [Text.byteLength_append]
    have placed' : offset = found.position.offset + Text.byteLength before := placed
    omega
  exact Text.eq_of_byteLength_eq ⟨inside, spelled.symm⟩ ⟨_, around.symm⟩ bytes

variable {tag : Tag} {ids : InstanceIds}

/-- Nothing is opened in the head. -/
theorem OpensAtSpreads.head (opensAt : tag.OpensAtSpreads) {inside : List Char}
    (final : inside <:+ tag.head) (present : inside ≠ []) : ¬CssSpread.Opens (inside ++ tag.rest) := by
  intro opens
  obtain ⟨before, spelled⟩ := final
  obtain ⟨_, _, _, _, _, placed⟩ := opensAt before (inside ++ tag.rest)
    (by rw [← List.append_assoc, spelled, text_eq_head_append]) opens
  exact absurd placed (ne_head_append spelled present _)

/-- The tag closes the spreads that it opens. -/
theorem OpensAtSpreads.closes (opensAt : tag.OpensAtSpreads) : CssSpread.Closes tag.text := by
  rintro inside ⟨before, spelled⟩ opens
  obtain ⟨front, piece, back, cutAt, isSpread, placed⟩ := opensAt before inside spelled.symm opens
  rw [text_around cutAt, placed] at spelled
  rw [List.append_cancel_left spelled]
  have ends := Piece.text_getLast_of_spread (Option.eq_some_of_isSome isSpread)
  exact List.mem_append_left _ (List.mem_of_getLast? ends)

/-- A tag that opens spreads at spreads only, and does not forward, holds no flat spread. -/
theorem OpensAtSpreads.silent (opensAt : tag.OpensAtSpreads) (kept : tag.forwardsScope = false) :
    CssSpread.pattern.Silent tag.text [] := by
  refine Pattern.silent_of_forall_ne fun inside spread final _ read => ?_
  obtain ⟨before, spelled⟩ := final
  obtain ⟨front, piece, back, cutAt, isSpread, placed⟩ :=
    opensAt before inside spelled.symm (CssSpread.opens_of_read read)
  rw [text_around cutAt, placed] at spelled
  rw [List.append_cancel_left spelled] at read
  obtain ⟨covering, same⟩ := Option.isSome_iff_exists.mp isSpread
  have forwards := Piece.forwards_of_isFlat same (Piece.isFlat_of_read same read)
  have scope := forwardsScope_iff.mpr ⟨piece, by rw [cutAt]; simp, forwards⟩
  rw [scope] at kept
  simp at kept

/-- No flat spread is read in the head of such a tag. -/
theorem OpensAtSpreads.silent_front (opensAt : tag.OpensAtSpreads) (settled : tag.Settled)
    (avoids : ids.Avoids ['<', '>', '{', '}']) (gets : tag.isScoped = true) (forwarding : Bool) :
    CssSpread.pattern.Silent (tag.head ++ tag.binding ids forwarding) tag.rest := by
  refine Pattern.Silent.append ?_
    (CssSpread.silent_of_blocked (blocked_binding avoids forwarding) tag.rest)
  intro inside final present
  cases read : CssSpread.pattern.read? (inside ++ (tag.binding ids forwarding ++ tag.rest)) with
  | none => rfl
  | some spread =>
    have opens := CssSpread.opens_of_read read
    rw [binding, if_pos gets, List.cons_append] at opens
    obtain ⟨body, rfl⟩ := settled.opens_in_head final present (by decide)
      (CssSpread.not_opens_blank (shuts_scopeAttribute ids forwarding tag.rest)) opens
    exact absurd ⟨[], body ++ tag.rest, by simp, by simp⟩ (opensAt.head final present)

/-- A tag whose forwarding spreads are all flat has its flat spreads removed, and no other. -/
theorem Accepted.isFlat_eq (accepted : tag.Accepted)
    (flat : ∀ spread ∈ tag.spreads, spread.mentionsTarget = true → spread.IsFlat) :
    ∀ piece ∈ tag.body, piece.isFlat = piece.forwards := by
  intro piece member
  rw [Bool.eq_iff_iff]
  constructor
  · exact accepted.forwards_of_flat member
  · intro forwards
    obtain ⟨spread, same, mentions⟩ := Piece.forwards_iff.mp forwards
    exact (Piece.isFlat_iff same).mpr (flat spread (mem_spreads member same) mentions)

/-- Such a tag is read as a flat tag exactly if it forwards the scope. -/
theorem Orderly.isForwarded_eq (orderly : tag.Orderly) (opensAt : tag.OpensAtSpreads)
    (gets : tag.isScoped = true) (avoids : ids.Avoids ['<', '>', '{', '}'])
    (flat : ∀ spread ∈ tag.spreads, spread.mentionsTarget = true → spread.IsFlat) :
    tag.isForwarded ids = tag.forwardsScope := by
  have same := orderly.accepted.isFlat_eq flat
  cases forwards : tag.forwardsScope with
  | true =>
    obtain ⟨piece, member, forwardsPiece⟩ := forwardsScope_iff.mp forwards
    obtain ⟨hit, read, _⟩ := orderly.read_of_flat avoids member (by rw [same piece member, forwardsPiece])
    rw [isForwarded, read]
    rfl
  | false =>
    have none : ∀ piece ∈ tag.body, piece.isFlat = false := by
      intro piece member
      rw [same piece member, Bool.eq_false_iff]
      intro forwardsPiece
      rw [forwardsScope_iff.mpr ⟨piece, member, forwardsPiece⟩] at forwards
      simp at forwards
    have silent := orderly.silent_kept (opensAt.silent_front orderly.settled avoids gets false)
    rw [keptRest_eq_rest none] at silent
    have unread : ForwardingTag.read? tag.kind (tag.scopedText ids) = Option.none :=
      ForwardingTag.read_eq_none silent
    rw [isForwarded, unread]
    rfl

/-- All passes together write such a tag from its pieces. -/
theorem Orderly.resolvedText_eq (orderly : tag.Orderly) (opensAt : tag.OpensAtSpreads)
    (gets : tag.isScoped = true) (avoids : ids.Avoids ['<', '>', '{', '}'])
    (flat : ∀ spread ∈ tag.spreads, spread.mentionsTarget = true → spread.IsFlat) :
    tag.resolvedText ids = tag.rewritten ids := by
  have resolved : tag.resolvedText ids = tag.forwardedText ids := by
    rw [resolvedText, orderly.forwardScope_component avoids]
  have unexempt : ¬tag.isExempt = true := by
    rw [orderly.unexempt]
    decide
  rw [resolved, forwardedText, orderly.isForwarded_eq opensAt gets avoids flat, binding,
    if_pos gets, keptRest, Piece.remaining_congr (orderly.accepted.isFlat_eq flat), rewritten,
    if_neg unexempt, remainder]

/-- An exempt tag that does not forward is kept by all passes. -/
theorem OpensAtSpreads.resolvedText_exempt (opensAt : tag.OpensAtSpreads)
    (exempt : tag.isExempt = true) (kept : tag.forwardsScope = false) (ids : InstanceIds) :
    tag.resolvedText ids = tag.rewritten ids := by
  have silent := opensAt.silent kept
  rw [resolvedText, elementForwarded_of_isExempt exempt silent,
    forwardScope_of_silent .component silent, rewritten, if_pos exempt]

end Tag

/-- Scoping a source without faults, whose tags open spreads where the scan records them and
forward by flat spreads only, writes each tag from its pieces and keeps the text between the
tags. -/
theorem scoping_follows_scan (ids : InstanceIds) (file source : String)
    (accepted : diagnose ids file source.toList = [])
    (closed : ∀ found ∈ scanTags source.toList, found.value.isClosed = true)
    (named : ∀ found ∈ scanTags source.toList, found.value.isOpening = true)
    (single : ∀ found ∈ scanTags source.toList,
      Text.holdsTagStart (found.value.text.drop 1) = false)
    (recorded : ∀ found ∈ scanTags source.toList, ∀ before inside,
      found.value.text = before ++ inside → CssSpread.Opens inside →
        ∃ span ∈ (TagSpan.ofLocated found).spreads,
          span.start = (TagSpan.ofLocated found).start + Text.byteLength before)
    (flat : ∀ found ∈ scanTags source.toList, ∀ spread ∈ found.value.spreads,
      spread.mentionsTarget = true → spread.IsFlat)
    (exempt : ∀ found ∈ scanTags source.toList, found.value.isExempt = true →
      found.value.forwardsScope = false)
    (avoids : ids.Avoids ['<', '>', '{', '}']) :
    (scopeSource ids source).code =
      String.ofList ((Tag.pattern.split source.toList).render (Tag.rewritten ids)) := by
  have tidy := tidy_of_scan closed single
  have opensAt : ∀ found ∈ scanTags source.toList, found.value.OpensAtSpreads :=
    fun found scanned => Tag.opensAtSpreads_of_recorded (recorded found scanned)
  obtain ⟨confined, untorn⟩ := confined_of_closes accepted tidy avoids
    (fun found scanned => (opensAt found scanned).closes)
    (fun found scanned kept => (opensAt found scanned).silent (exempt found scanned kept))
  have each : ∀ tag ∈ (Tag.pattern.split source.toList).values,
      tag.resolvedText ids = tag.rewritten ids := by
    intro tag member
    obtain ⟨found, scanned, rfl⟩ := exists_scanned member
    cases unexempt : found.value.isExempt with
    | true => exact (opensAt found scanned).resolvedText_exempt unexempt (exempt found scanned unexempt) ids
    | false =>
      have orderly := orderly_of_diagnose accepted scanned (tidy.settled _ member)
        (single found scanned) unexempt (untorn found scanned)
      have gets : found.value.isScoped = true := by
        rw [Tag.isScoped, named found scanned, unexempt]
        rfl
      exact orderly.resolvedText_eq (opensAt found scanned) gets avoids (flat found scanned)
  rw [← Split.render_congr each, ← (tidy.scopeSource_eq confined).1, String.ofList_toList]

/-- A forwarding element and a component in it. -/
theorem scoping_follows_scan_nested :
    (scopeSource ⟨[("Card", "k")], by decide⟩ "<p \x7b...cssTarget\x7d>x<Card /></p>").code =
      "<p data-sveltesheet-ids=\x7b`$\x7bdataSveltesheetIds\x7d $\x7bsvelteCssRuntimeId\x7d`\x7d>" ++
        "x<Card dataSveltesheetIds=\x7b`k $\x7bsvelteCssRuntimeId\x7d`\x7d /></p>" := by
  refine (scoping_follows_scan _ "f" _ (List.isEmpty_iff.mp (by decide +kernel)) (by decide +kernel)
    (by decide +kernel) (by decide +kernel) ?_ (by decide +kernel) (by decide +kernel)
    (by decide)).trans (by decide +kernel)
  have placed : ∀ found ∈ scanTags "<p \x7b...cssTarget\x7d>x<Card /></p>".toList,
      ∀ size < found.value.text.length + 1, CssSpread.Opens (found.value.text.drop size) →
        ∃ span ∈ (TagSpan.ofLocated found).spreads, span.start =
          (TagSpan.ofLocated found).start + Text.byteLength (found.value.text.take size) := by
    decide +kernel
  intro found scanned before inside spelled opens
  have shorter : before.length < found.value.text.length + 1 := by
    rw [spelled, List.length_append]
    omega
  have recorded := placed found scanned before.length shorter
  rw [spelled, List.drop_left, List.take_left] at recorded
  exact recorded opens

end ScopedMarkup
