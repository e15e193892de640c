import ScopedMarkup.Proofs.Gaps
import ScopedMarkup.Proofs.Occurrences
import ScopedMarkup.Proofs.Resolved
import ScopedMarkup.Proofs.WholeSource

/-!
# Which spreads are resolved

Strict mode is meant to resolve every spread that forwards the scope. The scan finds such a
spread by its balanced braces, the passes find it as flat text up to the first `}`. A spread
with a `}` in front of its first `cssTarget`, in a string say, has no fault and is not found by
the passes, so it stays in the tag and is not counted.

As long as the passes are confined to the tags and no name is torn, this is all that stands
between the two, but for tags that are counted without forwarding anything: the name of a
component may open a spread that an instance id with `cssTarget` completes. Without such an id,
and on a source whose tags close the spreads that are opened in them, only the spreads remain to
be looked at.
-/

namespace ScopedMarkup

namespace Tag

variable {tag : Tag} {ids : InstanceIds}

/-- Behind the head of a tag without flat spreads none is read. -/
theorem Orderly.silent_rest (orderly : tag.Orderly)
    (none : ∀ piece ∈ tag.body, piece.isFlat = false) : CssSpread.pattern.Silent tag.rest [] := by
  have silent := Piece.silent_remaining orderly.settled.pieces orderly.accepted.quiet
    orderly.settled.silent_ending [] CssSpread.sealed_nil (Pattern.silent_nil _ _)
  have same := keptRest_eq_rest none
  rw [keptRest] at same
  rwa [same] at silent

/-- A flat tag holds a flat spread. -/
theorem exists_read_of_isForwarded (isRead : tag.isForwarded ids = true) :
    ∃ inside spread, inside <:+ tag.scopedText ids ∧ inside ≠ [] ∧
      CssSpread.read? inside = some spread := by
  apply (CssSpread.pattern.occursIn_iff _).mp
  by_contra absent
  have silent := Pattern.occursIn_eq_false_iff.mp (Bool.eq_false_iff.mpr absent)
  rw [isForwarded, ForwardingTag.read_eq_none silent] at isRead
  exact absurd isRead (by decide)

/-- A flat tag without flat spreads among its pieces has one in its head. -/
theorem Orderly.isForged_of_isForwarded (orderly : tag.Orderly)
    (none : ∀ piece ∈ tag.body, piece.isFlat = false) (isRead : tag.isForwarded ids = true) :
    tag.isForged ids = true := by
  rw [isForged, Pattern.occursIn_iff]
  have unreadRest : ∀ inside spread, inside <:+ tag.rest →
      CssSpread.read? inside ≠ some spread := by
    intro inside spread final read
    have unread := (orderly.silent_rest none).read_none final
    exact absurd (unread.symm.trans read) (by simp)
  obtain ⟨inside, spread, final, _, read⟩ := exists_read_of_isForwarded isRead
  rcases Text.suffix_append_iff.mp final with within | ⟨inner, rfl, early⟩
  · exact absurd read (unreadRest inside spread within)
  · have presentInner : inner ≠ [] := by
      rintro rfl
      exact unreadRest tag.rest spread List.suffix_rfl read
    by_cases gets : tag.isScoped = true
    · -- The attribute ends with a brace, so the spread ends in the head.
      have ends := scopedHead_getLast gets ids false
      rw [Text.getLast?_of_suffix early presentInner] at ends
      have alone := CssSpread.read_of_mem read (List.mem_of_getLast? ends)
      exact ⟨inner, spread, early, presentInner, alone⟩
    · rw [binding, if_neg gets, List.append_nil] at early
      have unread := orderly.accepted.head inner early presentInner
      exact absurd (unread.symm.trans read) (by simp)

/-- A tag is read as a flat tag if its pieces or its head hold a flat spread, and only then. -/
theorem Orderly.isForwarded_iff (orderly : tag.Orderly) (avoids : ids.Avoids ['<', '>', '{', '}']) :
    tag.isForwarded ids = true ↔
      (∃ piece ∈ tag.body, piece.isFlat = true) ∨ tag.isForged ids = true := by
  constructor
  · intro isRead
    by_cases holds : ∃ piece ∈ tag.body, piece.isFlat = true
    · exact Or.inl holds
    · have none : ∀ piece ∈ tag.body, piece.isFlat = false := by
        intro piece member
        rw [Bool.eq_false_iff]
        exact fun flat => holds ⟨piece, member, flat⟩
      exact Or.inr (orderly.isForged_of_isForwarded none isRead)
  · rintro (⟨piece, member, flat⟩ | forged)
    · obtain ⟨hit, reading, _⟩ := orderly.read_of_flat avoids member flat
      rw [isForwarded, reading]
      rfl
    · exact orderly.settled.isForwarded_of_isForged avoids forged

/-- The tag that the passes make of a tag forwards nothing exactly if all forwarding spreads are
flat. -/
theorem resolved_forwardsScope_eq_false_iff (avoids : ids.Avoids ['}', '`', '$', '\\']) :
    (tag.resolved ids).forwardsScope = false ↔
      ∀ spread ∈ tag.spreads, spread.mentionsTarget = true → spread.IsFlat := by
  rw [Bool.eq_false_iff, Ne, resolved_forwardsScope_iff avoids]
  constructor
  · intro none spread member mentions
    obtain ⟨piece, inBody, same⟩ := List.mem_filterMap.mp member
    by_contra curved
    refine none ⟨piece, inBody, Piece.forwards_iff.mpr ⟨spread, same, mentions⟩, ?_⟩
    rw [Bool.eq_false_iff]
    exact fun flat => curved ((Piece.isFlat_iff same).mp flat)
  · rintro flat ⟨piece, inBody, forwards, curved⟩
    obtain ⟨spread, same, mentions⟩ := Piece.forwards_iff.mp forwards
    have isFlat := (Piece.isFlat_iff same).mpr (flat spread (mem_spreads inBody same) mentions)
    rw [curved] at isFlat
    exact absurd isFlat (by decide)

/-- If all its forwarding spreads are flat, a tag is read as a flat tag because it forwards or
because of its head. -/
theorem Orderly.isForwarded_eq_or (orderly : tag.Orderly) (avoids : ids.Avoids ['<', '>', '{', '}'])
    (flat : ∀ spread ∈ tag.spreads, spread.mentionsTarget = true → spread.IsFlat) :
    tag.isForwarded ids = (tag.forwardsScope || tag.isForged ids) := by
  have same := orderly.accepted.isFlat_eq flat
  rw [Bool.eq_iff_iff, orderly.isForwarded_iff avoids, Bool.or_eq_true, forwardsScope_iff]
  constructor
  · rintro (⟨piece, member, isFlat⟩ | forged)
    · exact Or.inl ⟨piece, member, (same piece member).symm.trans isFlat⟩
    · exact Or.inr forged
  · rintro (⟨piece, member, forwards⟩ | forged)
    · exact Or.inl ⟨piece, member, (same piece member).trans forwards⟩
    · exact Or.inr forged

/-- Without an instance id that mentions `cssTarget` no attribute does. -/
theorem target_not_in_attribute (omits : ids.Omits [cssTargetName]) (tag : Tag) :
    Text.contains cssTargetName (tag.scopeAttribute ids false) = false := by
  rw [← Text.occurrences_eq_zero_iff]
  cases kind : tag.kind with
  | element =>
    rw [tag.scopeAttribute_element kind]
    decide
  | component =>
    have absent := omits.getD List.mem_cons_self (by decide) (String.ofList tag.name)
    have named : cssTargetName.all isNameChar = true := by decide
    rw [tag.scopeAttribute_component kind,
      Word.occurrences_componentAttribute (by decide) (List.all_eq_true.mp named) (by decide),
      Text.occurrences_eq_zero_iff.mpr absent]
    decide

/-- So no spread that a name opens is completed to a flat one by the attribute. -/
theorem Orderly.isForged_eq_false (orderly : tag.Orderly) (avoids : ids.Avoids ['<', '>', '{', '}'])
    (omits : ids.Omits [cssTargetName]) : tag.isForged ids = false := by
  have inBinding : CssSpread.pattern.Silent (tag.binding ids false) [] :=
    CssSpread.silent_of_blocked (blocked_binding avoids false) []
  refine Pattern.occursIn_eq_false_iff.mpr (Pattern.Silent.append ?_ inBinding)
  rw [List.append_nil]
  by_cases gets : tag.isScoped = true
  · have silent := orderly.settled.silent_unmentioned orderly.accepted gets orderly.untorn
      (target_not_in_attribute omits tag) []
    rwa [List.append_nil] at silent
  · rw [binding, if_neg gets]
    exact CssSpread.silent_of_append orderly.accepted.head

end Tag

namespace Tidy

variable {cut : Split Tag} {ids : InstanceIds}

/-- A scan of what the passes write finds the tags that they make of the tags. -/
theorem values_split_resolved (tidy : Tidy cut) (orderly : ∀ tag ∈ cut.values, tag.Orderly)
    (avoids : ids.Avoids ['<', '>', '{', '}', '`', '$', '\\']) :
    (Tag.pattern.split (cut.render (Tag.resolvedText ids))).values =
      cut.values.map (Tag.resolved ids) := by
  have angles : ids.Avoids ['<', '>', '{', '}'] := avoids.of_subset (by decide)
  have marks : ids.Avoids ['}', '`', '$', '\\'] := avoids.of_subset (by decide)
  have spelled : ∀ tag ∈ cut.values, (tag.resolved ids).text = tag.resolvedText ids := by
    intro tag member
    rw [(tidy.settled tag member).resolved_text, Tag.resolvedText,
      (orderly tag member).forwardScope_component angles]
  have rescanned := Tag.pattern.split_render cut (Tag.resolvedText ids) (Tag.resolved ids)
    (Tag.pattern_startsTags.silent tidy.tail rfl) spelled
    (fun front gap tag back cutAt => by
      have member := tidy.mem_values cutAt
      have inHits : (gap, tag) ∈ cut.hits := by
        rw [cutAt]
        exact List.mem_append_right front List.mem_cons_self
      refine Tag.pattern_startsTags.silent (tidy.gaps (gap, tag) inHits) ?_
      rw [← spelled tag member]
      rfl)
    (fun front gap tag back cutAt => by
      have member := tidy.mem_values cutAt
      rw [← spelled tag member]
      exact ((tidy.settled tag member).resolved (orderly tag member).unexempt marks).read _)
  rw [rescanned, Split.values, Split.values, List.map_map, List.map_map]
  rfl

/-- The passes count the tags that are read as flat tags. -/
theorem sum_resolvedPlaces (orderly : ∀ tag ∈ cut.values, tag.Orderly)
    (avoids : ids.Avoids ['<', '>', '{', '}']) :
    (cut.values.map (Tag.resolvedPlaces ids)).sum = cut.values.countP (Tag.isForwarded ids) := by
  generalize cut.values = tags at orderly
  induction tags with
  | nil => rfl
  | cons tag others inductionHypothesis =>
    have here : tag.resolvedPlaces ids = if tag.isForwarded ids then 1 else 0 :=
      (orderly tag List.mem_cons_self).places avoids
    rw [List.map_cons, List.sum_cons, List.countP_cons, here,
      inductionHypothesis fun other member => orderly other (List.mem_cons_of_mem _ member)]
    exact Nat.add_comm _ _

end Tidy

/-- Hits of which one or the other holds are those of which the one holds and those of which
only the other does. -/
theorem countP_or {α : Type} (first second : α → Bool) (list : List α) :
    list.countP (fun value => first value || second value) =
      list.countP first + list.countP fun value => !first value && second value := by
  induction list with
  | nil => rfl
  | cons value rest inductionHypothesis =>
    rw [List.countP_cons, List.countP_cons, List.countP_cons, inductionHypothesis]
    cases first value <;> cases second value <;> simp <;> omega

/-- Adding a number to a count of 32 bits changes nothing if it is a multiple of their range. -/
theorem ofNat_add_eq_iff (count more : Nat) :
    UInt32.ofNat (count + more) = UInt32.ofNat count ↔ 2 ^ 32 ∣ more := by
  rw [← UInt32.toNat_inj, UInt32.toNat_ofNat', UInt32.toNat_ofNat']
  omega

/-- The scan lists the tags of the cut. -/
theorem countP_scanTags (source : List Char) (property : Tag → Bool) :
    (scanTags source).countP (fun found => property found.value) =
      (Tag.pattern.split source).values.countP property := by
  rw [← Tag.pattern.locate_map_value Position.start, List.countP_map]
  rfl

/-- The tags of a source without diagnostics are orderly if none is exempt and no name is torn. -/
theorem Tidy.orderly {ids : InstanceIds} {file : String} {source : List Char}
    (tidy : Tidy (Tag.pattern.split source)) (accepted : diagnose ids file source = [])
    (unexempt : ∀ found ∈ scanTags source, found.value.isExempt = false)
    (untorn : ∀ found ∈ scanTags source, ¬found.value.TearsName) :
    ∀ tag ∈ (Tag.pattern.split source).values, tag.Orderly := by
  intro tag member
  obtain ⟨found, scanned, rfl⟩ := exists_scanned member
  exact orderly_of_diagnose accepted scanned (tidy.settled _ member) (tidy.single _ member)
    (unexempt found scanned) (untorn found scanned)

section

variable {ids : InstanceIds} {source : String} (tidy : Tidy (Tag.pattern.split source.toList))
  (orderly : ∀ tag ∈ (Tag.pattern.split source.toList).values, tag.Orderly)
  (confined : Confined ids (Tag.pattern.split source.toList))
include tidy orderly confined

/-- A scan of the result finds no tag that forwards exactly if all spreads that do are flat. -/
theorem unresolved_iff (avoids : ids.Avoids ['<', '>', '{', '}', '`', '$', '\\']) :
    (∀ found ∈ scanTags (scopeSource ids source).code.toList, found.value.forwardsScope = false) ↔
      ∀ found ∈ scanTags source.toList, ∀ spread ∈ found.value.spreads,
        spread.mentionsTarget = true → spread.IsFlat := by
  have marks : ids.Avoids ['}', '`', '$', '\\'] := avoids.of_subset (by decide)
  have rescanned := Tag.pattern.locate_map_value Position.start
    ((Tag.pattern.split source.toList).render (Tag.resolvedText ids))
  rw [tidy.values_split_resolved orderly avoids,
    ← Tag.pattern.locate_map_value Position.start, List.map_map] at rescanned
  have everywhere : ∀ property : Tag → Prop,
      (∀ found ∈ scanTags (scopeSource ids source).code.toList, property found.value) ↔
        ∀ found ∈ scanTags source.toList, property (found.value.resolved ids) := by
    intro property
    rw [(tidy.scopeSource_eq confined).1]
    have all := congrArg (fun tags : List Tag => ∀ tag ∈ tags, property tag) rescanned
    simpa [scanTags] using iff_of_eq all
  rw [everywhere fun tag => tag.forwardsScope = false]
  simp only [Tag.resolved_forwardsScope_eq_false_iff marks]

/-- If they are, the counter has the number of tags that forward or hold a flat spread in their
heads. -/
theorem cssTargetsResolved_of_isFlat (avoids : ids.Avoids ['<', '>', '{', '}'])
    (flat : ∀ found ∈ scanTags source.toList, ∀ spread ∈ found.value.spreads,
      spread.mentionsTarget = true → spread.IsFlat) :
    (scopeSource ids source).cssTargetsResolved = UInt32.ofNat ((scanTags source.toList).countP
      fun found => found.value.forwardsScope || found.value.isForged ids) := by
  rw [(tidy.scopeSource_eq confined).2, Tidy.sum_resolvedPlaces orderly avoids,
    countP_scanTags source.toList fun tag => tag.forwardsScope || tag.isForged ids]
  refine congrArg UInt32.ofNat (List.countP_congr fun tag member => ?_)
  obtain ⟨found, scanned, rfl⟩ := exists_scanned member
  rw [(orderly _ member).isForwarded_eq_or avoids (flat found scanned)]

end

/-- When the passes are confined to the tags and no name is torn, strict mode resolves all
spreads that forward the scope, and counts the tags that do, exactly if all these spreads are
flat and no tag is counted because of its head. The counter has 32 bits. -/
theorem strict_scoping_resolves_spreads (ids : InstanceIds) (options : PreprocessOptions)
    (source : String) (result : PreprocessResult) (strict : options.strict = true)
    (outcome : (preprocess ids options source).outcome = .ok result)
    (closed : ∀ found ∈ scanTags source.toList, found.value.isClosed = true)
    (unexempt : ∀ found ∈ scanTags source.toList, found.value.isExempt = false)
    (single : ∀ found ∈ scanTags source.toList,
      Text.holdsTagStart (found.value.text.drop 1) = false)
    (avoids : ids.Avoids ['<', '>', '{', '}', '`', '$', '\\'])
    (confined : Confined ids (Tag.pattern.split source.toList))
    (untorn : ∀ found ∈ scanTags source.toList, ¬found.value.TearsName) :
    (result.cssTargetsResolved =
        UInt32.ofNat ((scanTags source.toList).countP fun found => found.value.forwardsScope) ∧
      ∀ found ∈ scanTags result.code.toList, found.value.forwardsScope = false) ↔
    ((∀ found ∈ scanTags source.toList, ∀ spread ∈ found.value.spreads,
        spread.mentionsTarget = true → spread.IsFlat) ∧
      2 ^ 32 ∣ (scanTags source.toList).countP fun found =>
        !found.value.forwardsScope && found.value.isForged ids) := by
  obtain ⟨accepted, rfl⟩ := outcome_strict strict outcome
  have tidy := tidy_of_scan closed single
  have orderly := tidy.orderly accepted unexempt untorn
  rw [unresolved_iff tidy orderly confined avoids, and_comm]
  refine and_congr_right fun flat => ?_
  rw [cssTargetsResolved_of_isFlat tidy orderly confined (avoids.of_subset (by decide)) flat,
    countP_or, ofNat_add_eq_iff]

/-- A source whose one spread that forwards is resolved, and counted. -/
theorem strict_scoping_resolves_spreads_here :
    (scopeSource ⟨[("Card", "k")], by decide⟩
        "<p \x7b...cssTarget\x7d>x<Card \x7b...a\x7d/>").cssTargetsResolved = UInt32.ofNat
          ((scanTags "<p \x7b...cssTarget\x7d>x<Card \x7b...a\x7d/>".toList).countP
            fun found => found.value.forwardsScope) ∧
      ∀ found ∈ scanTags (scopeSource ⟨[("Card", "k")], by decide⟩
        "<p \x7b...cssTarget\x7d>x<Card \x7b...a\x7d/>").code.toList,
          found.value.forwardsScope = false := by
  have braceless : ∀ found ∈ scanTags "<p \x7b...cssTarget\x7d>x<Card \x7b...a\x7d/>".toList,
      '{' ∉ found.value.name := by
    decide +kernel
  exact (strict_scoping_resolves_spreads ⟨[("Card", "k")], by decide⟩ ⟨true, "f"⟩ _ _ rfl rfl
    (by decide +kernel) (by decide +kernel) (by decide +kernel) (by decide) (by decide +kernel)
    fun found scanned => Tag.untorn_of_absent (braceless found scanned)).mpr
      ⟨by decide +kernel, by decide +kernel⟩

/-- A source without diagnostics whose spread is kept: a `}` stands in a string before
`cssTarget`. -/
theorem strict_scoping_keeps_spread :
    ∃ result, (preprocess ⟨[], by decide⟩ ⟨true, "f"⟩
        "<div \x7b...f(\"\x7d\", cssTarget)\x7d>").outcome = .ok result ∧
      (∀ found ∈ scanTags "<div \x7b...f(\"\x7d\", cssTarget)\x7d>".toList,
        found.value.isClosed = true ∧ found.value.isExempt = false ∧
          Text.holdsTagStart (found.value.text.drop 1) = false) ∧
      ¬(result.cssTargetsResolved = UInt32.ofNat
          ((scanTags "<div \x7b...f(\"\x7d\", cssTarget)\x7d>".toList).countP
            fun found => found.value.forwardsScope) ∧
        ∀ found ∈ scanTags result.code.toList, found.value.forwardsScope = false) := by
  refine ⟨_, rfl, by decide +kernel, ?_⟩
  decide +kernel

/-- It is enough to look at the tags of the source: if each meets a `}` behind every spread that is
opened in it, and no instance id mentions `cssTarget`, strict mode resolves all spreads that forward
the scope, and counts the tags that do, exactly if all these spreads are flat. -/
theorem strict_scoping_resolves_spreads_of_closes (ids : InstanceIds) (options : PreprocessOptions)
    (source : String) (result : PreprocessResult) (strict : options.strict = true)
    (outcome : (preprocess ids options source).outcome = .ok result)
    (closed : ∀ found ∈ scanTags source.toList, found.value.isClosed = true)
    (unexempt : ∀ found ∈ scanTags source.toList, found.value.isExempt = false)
    (single : ∀ found ∈ scanTags source.toList,
      Text.holdsTagStart (found.value.text.drop 1) = false)
    (avoids : ids.Avoids ['<', '>', '{', '}', '`', '$', '\\'])
    (omits : ids.Omits [cssTargetName])
    (closes : ∀ found ∈ scanTags source.toList, CssSpread.Closes found.value.text) :
    (result.cssTargetsResolved =
        UInt32.ofNat ((scanTags source.toList).countP fun found => found.value.forwardsScope) ∧
      ∀ found ∈ scanTags result.code.toList, found.value.forwardsScope = false) ↔
    ∀ found ∈ scanTags source.toList, ∀ spread ∈ found.value.spreads,
      spread.mentionsTarget = true → spread.IsFlat := by
  obtain ⟨accepted, rfl⟩ := outcome_strict strict outcome
  have angles : ids.Avoids ['<', '>', '{', '}'] := avoids.of_subset (by decide)
  have tidy := tidy_of_scan closed single
  obtain ⟨confined, untorn⟩ := confined_of_closes accepted tidy angles closes
    fun found scanned exempt => by
      rw [unexempt found scanned] at exempt
      exact absurd exempt (by decide)
  have orderly := tidy.orderly accepted unexempt untorn
  rw [unresolved_iff tidy orderly confined avoids]
  refine and_iff_right_of_imp fun flat => ?_
  rw [cssTargetsResolved_of_isFlat tidy orderly confined angles flat]
  refine congrArg UInt32.ofNat (List.countP_congr fun found scanned => ?_)
  rw [(orderly _ (mem_values_of_scanned scanned)).isForged_eq_false angles omits, Bool.or_false]

/-- Two spreads that are resolved, behind a value that opens a spread and closes it. -/
theorem strict_scoping_resolves_spreads_of_closes_here :
    (scopeSource ⟨[("Card", "k")], by decide⟩
        "<p title=\"\x7b...a\x7d\" \x7b...cssTarget\x7d>x<Card \x7b...f(cssTarget)\x7d/>").cssTargetsResolved =
          2 ∧
      ∀ found ∈ scanTags (scopeSource ⟨[("Card", "k")], by decide⟩
        "<p title=\"\x7b...a\x7d\" \x7b...cssTarget\x7d>x<Card \x7b...f(cssTarget)\x7d/>").code.toList,
          found.value.forwardsScope = false := by
  have counted : (scanTags
      "<p title=\"\x7b...a\x7d\" \x7b...cssTarget\x7d>x<Card \x7b...f(cssTarget)\x7d/>".toList).countP
        (fun found => found.value.forwardsScope) = 2 := by
    decide +kernel
  have resolved := (strict_scoping_resolves_spreads_of_closes ⟨[("Card", "k")], by decide⟩
    ⟨true, "f"⟩ "<p title=\"\x7b...a\x7d\" \x7b...cssTarget\x7d>x<Card \x7b...f(cssTarget)\x7d/>" _ rfl rfl
    (by decide +kernel) (by decide +kernel) (by decide +kernel) (by decide) (by decide +kernel)
    (by decide +kernel)).mpr (by decide +kernel)
  rwa [counted] at resolved

end ScopedMarkup
