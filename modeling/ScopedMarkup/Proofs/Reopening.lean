import ScopedMarkup.Proofs.Passes

/-!
# Spreads that removal makes

Removal goes over a tag once and never looks back. When a spread is taken out, the text in front of
it meets the text behind it, and the two may spell a spread that neither held: in
`{{...cssTarget}...cssTarget}` the inner spread goes and another one is left. A second pass then
finds the tag again and puts the parent's ids in once more.

This is the only way in which spreads are left. What is kept in front of a removed spread must end
with an opening that is begun and lacks a dot, and what is kept behind it must complete it. An
opening with all its dots would have been read as a spread before, up to the first `}` of the
removed one. So a tag keeps no spread exactly if no removal in it reopens one.
-/

namespace ScopedMarkup

namespace CssSpread

/-- Whether a text is an opening that is begun: `{`, script blanks, and at most two dots. -/
def begins : List Char → Bool
  | '{' :: rest => (rest.dropWhile Text.isScriptBlank).isPrefixOf ['.', '.']
  | _ => false

/-- An opening that is completed behind a text is begun in it. -/
theorem begins_of_opens {inside behind : List Char} (present : inside ≠ [])
    (opens : Opens (inside ++ behind)) (unfinished : ¬Opens inside) : begins inside = true := by
  obtain ⟨blanks, more, joined, blank⟩ := opens
  obtain ⟨c, rest, rfl⟩ := List.exists_cons_of_ne_nil present
  obtain ⟨rfl, spelled⟩ := List.cons.inj joined
  show (rest.dropWhile Text.isScriptBlank).isPrefixOf ['.', '.'] = true
  change rest ++ behind = blanks ++ '.' :: '.' :: '.' :: more at spelled
  rcases List.append_eq_append_iff.mp spelled with ⟨later, rfl, _⟩ | ⟨dots, rfl, dotted⟩
  · have blankRest : rest.dropWhile Text.isScriptBlank = [] :=
      List.dropWhile_eq_nil_iff.mpr fun c member => blank c (List.mem_append_left later member)
    rw [blankRest]
    rfl
  · rw [List.dropWhile_append_of_pos blank]
    rcases dots with _ | ⟨first, _ | ⟨second, _ | ⟨third, inner⟩⟩⟩
    · rfl
    · obtain ⟨rfl, _⟩ := List.cons.inj dotted
      rfl
    · obtain ⟨rfl, later⟩ := List.cons.inj dotted
      obtain ⟨rfl, _⟩ := List.cons.inj later
      rfl
    · obtain ⟨rfl, later⟩ := List.cons.inj dotted
      obtain ⟨rfl, last⟩ := List.cons.inj later
      obtain ⟨rfl, _⟩ := List.cons.inj last
      exact absurd ⟨blanks, inner, rfl, blank⟩ unfinished

end CssSpread

namespace Split

/-- What is kept of a cut when its hits are removed, each with the blanks before it. -/
def withoutHits (cut : Split (List Char)) : List Char :=
  cut.hits.flatMap (fun hit => Text.trimEnd hit.1) ++ cut.tail

theorem withoutHits_cons (gap removed : List Char) (hits : List (List Char × List Char))
    (tail : List Char) : (⟨(gap, removed) :: hits, tail⟩ : Split (List Char)).withoutHits =
      Text.trimEnd gap ++ (⟨hits, tail⟩ : Split (List Char)).withoutHits := by
  simp only [withoutHits, List.flatMap_cons, List.append_assoc]

/-- Whether removing the hits of a cut makes a spread: what is kept before a hit ends with an opening
that is begun, and with what is kept behind it this is a spread. -/
def Reopens (cut : Split (List Char)) : Prop :=
  ∃ front gap removed back begun, cut.hits = front ++ (gap, removed) :: back ∧
    begun <:+ Text.trimEnd gap ∧ CssSpread.begins begun = true ∧
      (CssSpread.read? (begun ++ (⟨back, cut.tail⟩ : Split (List Char)).withoutHits)).isSome = true

/-- Behind a hit nothing is reopened if nothing is in the whole cut. -/
theorem Reopens.cons {gap removed tail : List Char} {hits : List (List Char × List Char)}
    (reopens : (⟨hits, tail⟩ : Split (List Char)).Reopens) :
    (⟨(gap, removed) :: hits, tail⟩ : Split (List Char)).Reopens := by
  obtain ⟨front, gapToo, removedToo, back, begun, cutAt, facts⟩ := reopens
  exact ⟨(gap, removed) :: front, gapToo, removedToo, back, begun,
    congrArg ((gap, removed) :: ·) cutAt, facts⟩

end Split

namespace Pattern

variable {α : Type} {pattern : Pattern α}

/-- What stands behind a hit of a right cut is cut rightly. -/
theorem IsRight.behind {gap : List Char} {hit : α} {hits : List (List Char × α)} {tail : List Char}
    (right : pattern.IsRight ⟨(gap, hit) :: hits, tail⟩) : pattern.IsRight ⟨hits, tail⟩ where
  tail := right.tail
  gap front inner other back cutAt :=
    right.gap ((gap, hit) :: front) inner other back (congrArg ((gap, hit) :: ·) cutAt)
  hit front inner other back cutAt :=
    right.hit ((gap, hit) :: front) inner other back (congrArg ((gap, hit) :: ·) cutAt)

end Pattern

/-- In what is kept of a right cut a spread is read only where one is reopened. -/
theorem reopens_of_read {cut : Split (List Char)} (right : removals.IsRight cut)
    {inside : List Char} (final : inside <:+ cut.withoutHits)
    (reads : (CssSpread.read? inside).isSome = true) : cut.Reopens := by
  obtain ⟨hits, tail⟩ := cut
  induction hits generalizing inside with
  | nil =>
    obtain ⟨spread, read⟩ := Option.isSome_iff_exists.mp reads
    have unread := (silent_removals_iff.mp right.tail).read_none final
    exact nomatch unread.symm.trans read
  | cons first others inductionHypothesis =>
    obtain ⟨gap, removed⟩ := first
    rw [Split.withoutHits_cons] at final
    rcases Text.suffix_append_iff.mp final with within | ⟨inner, rfl, early⟩
    · exact (inductionHypothesis reads right.behind within).cons
    · by_cases present : inner = []
      · subst present
        exact (inductionHypothesis reads right.behind List.suffix_rfl).cons
      · have silent := silent_removals_iff.mp (right.gap [] gap removed others rfl)
        have removes : (CssSpread.read? (removed ++ _)).isSome = true := Option.isSome_iff_exists.mpr
          (exists_removal_iff.mp ⟨removed, right.hit [] gap removed others rfl⟩)
        have unfinished := CssSpread.not_opens_of_silent silent removes early present reads
        obtain ⟨spread, read⟩ := Option.isSome_iff_exists.mp reads
        exact ⟨[], gap, removed, others, inner, rfl, early,
          CssSpread.begins_of_opens present (CssSpread.opens_of_read read) unfinished, reads⟩

/-- What is kept behind a hit is kept of the cut. -/
theorem suffix_withoutHits {front back : List (List Char × List Char)} {gap removed tail : List Char} :
    Text.trimEnd gap ++ (⟨back, tail⟩ : Split (List Char)).withoutHits <:+
      (⟨front ++ (gap, removed) :: back, tail⟩ : Split (List Char)).withoutHits := by
  refine ⟨front.flatMap fun hit => Text.trimEnd hit.1, ?_⟩
  simp [Split.withoutHits]

/-- Removal leaves a spread in a text exactly if it reopens one. -/
theorem occursIn_withoutSpreads_iff (text : List Char) :
    CssSpread.pattern.occursIn (withoutSpreads text) = true ↔ (removals.split text).Reopens := by
  rw [Pattern.occursIn_iff]
  constructor
  · rintro ⟨inside, spread, final, _, read⟩
    exact reopens_of_read (removals.split_isRight text) final (Option.isSome_of_mem read)
  · rintro ⟨front, gap, removed, back, begun, cutAt, final, _, reads⟩
    obtain ⟨spread, read⟩ := Option.isSome_iff_exists.mp reads
    obtain ⟨rest, spelled⟩ := (CssSpread.opens_of_read read).eq_cons
    refine ⟨_, spread, ?_, by rw [spelled]; exact List.cons_ne_nil _ _, read⟩
    have within : begun ++ (⟨back, (removals.split text).tail⟩ : Split (List Char)).withoutHits <:+
        Text.trimEnd gap ++ (⟨back, (removals.split text).tail⟩ : Split (List Char)).withoutHits :=
      (Text.suffix_append_iff).mpr (Or.inr ⟨begun, rfl, final⟩)
    have behind := within.trans (@suffix_withoutHits front back gap removed (removals.split text).tail)
    rwa [← cutAt] at behind

namespace ForwardingTag

variable {kind : TagKind} {tag : ForwardingTag}

/-- The tag with the parent's ids put in, before its spreads are removed. -/
def widened (kind : TagKind) (tag : ForwardingTag) : List Char :=
  Text.insertAfterFirst kind.attributeOpening.toList inheritedIdsEntry.toList tag.text

/-- A flat tag is read alone as it is read before other text. -/
theorem read_alone {input : List Char} (read : read? kind input = some tag) :
    read? kind tag.text = some tag := by
  obtain ⟨behind, rfl⟩ := (text_of_read read).2
  exact read_of_within read (Nat.le_refl _)

/-- A pass over a flat tag alone merges it. -/
theorem forwardScope_text {input : List Char} (read : read? kind input = some tag) :
    forwardScope kind tag.text = ⟨tag.merged kind, 1⟩ := by
  have alone : (pattern kind).read? ((pattern kind).text tag ++ []) = some tag := by
    rw [List.append_nil]
    exact read_alone read
  have edited := forwardScope_append_of_read alone
  rw [List.append_nil, forwardScope_of_unread (Pattern.silent_nil _ _), List.append_nil] at edited
  exact edited

/-- In a merged tag with a spread and no `>` but at its end a flat tag is read, and it is all of
it. -/
theorem read_merged {input : List Char} (read : read? kind input = some tag)
    (left : CssSpread.pattern.occursIn (tag.merged kind) = true)
    (free : '>' ∉ (tag.merged kind).dropLast) :
    ∃ again, read? kind (tag.merged kind) = some again ∧ again.text = tag.merged kind := by
  obtain ⟨known, _⟩ := read_spec read
  have starts : kind.starts (tag.merged kind) = true := by
    obtain ⟨others, opened⟩ := merged_open read
    rw [opened]
    exact known
  have spelled : (tag.merged kind).dropLast ++ ['>'] = tag.merged kind :=
    List.dropLast_append_getLast? '>' (tag.merged_getLast kind)
  obtain ⟨inside, spread, ⟨before, joined⟩, present, reads⟩ :=
    (CssSpread.pattern.occursIn_iff _).mp left
  have ends : inside.getLast? = some '>' := by
    rw [← Text.getLast?_of_suffix ⟨before, joined⟩ present]
    exact tag.merged_getLast kind
  have freeBefore : '>' ∉ before := by
    obtain ⟨front, rfl⟩ := List.getLast?_eq_some_iff.mp ends
    rw [← joined, ← List.append_assoc, List.dropLast_concat] at free
    exact fun member => free (List.mem_append_left front member)
  have ended : '>' ∈ inside.drop spread.text.length := by
    obtain ⟨behind, rfl⟩ := CssSpread.eq_text_append_of_read reads
    rw [List.drop_left]
    rw [List.getLast?_append, CssSpread.text, List.getLast?_concat] at ends
    cases last : behind.getLast? with
    | none =>
      rw [last] at ends
      exact absurd (Option.some.inj ends) (by decide)
    | some c =>
      rw [last] at ends
      exact List.mem_of_getLast? (last.trans ends)
  have found : (read? kind (tag.merged kind)).isSome = true := by
    rw [← joined] at starts ⊢
    exact read_isSome starts freeBefore reads ended
  obtain ⟨again, readAgain⟩ := Option.isSome_iff_exists.mp found
  refine ⟨again, readAgain, ?_⟩
  rw [← spelled] at readAgain ⊢
  exact text_eq_of_read free readAgain

end ForwardingTag

/-- A flat tag that a pass resolves keeps a spread exactly if a removal in it reopens one. If none
does, a second pass leaves the tag as it is. If one does, a second pass resolves the tag again,
unless a `>` stands within what is left of it. -/
theorem resolved_again_iff {kind : TagKind} {input : List Char} {tag : ForwardingTag}
    (read : ForwardingTag.read? kind input = some tag) :
    forwardScope kind tag.text = ⟨tag.merged kind, 1⟩ ∧
    (CssSpread.pattern.occursIn (tag.merged kind) = true ↔
      (removals.split (tag.widened kind)).Reopens) ∧
    (¬(removals.split (tag.widened kind)).Reopens →
      forwardScope kind (tag.merged kind) = ⟨tag.merged kind, 0⟩) ∧
    ((removals.split (tag.widened kind)).Reopens → '>' ∉ (tag.merged kind).dropLast →
      ∃ again : ForwardingTag, again.text = tag.merged kind ∧
        forwardScope kind (tag.merged kind) = ⟨again.merged kind, 1⟩) := by
  have left : CssSpread.pattern.occursIn (tag.merged kind) = true ↔
      (removals.split (tag.widened kind)).Reopens := occursIn_withoutSpreads_iff (tag.widened kind)
  refine ⟨ForwardingTag.forwardScope_text read, left, fun kept => ?_, fun reopens free => ?_⟩
  · rw [← left, Bool.not_eq_true] at kept
    exact forwardScope_of_silent kind (Pattern.occursIn_eq_false_iff.mp kept)
  · obtain ⟨again, readAgain, whole⟩ := ForwardingTag.read_merged read (left.mpr reopens) free
    refine ⟨again, whole, ?_⟩
    rw [← whole]
    exact ForwardingTag.forwardScope_text readAgain

/-- A tag with one spread keeps none, and a second pass leaves it as it is. -/
theorem resolved_again_iff_plain :
    ¬(removals.split "<p \x7b...cssTarget\x7d>".toList).Reopens ∧
      forwardScope .element "<p>".toList = ⟨"<p>".toList, 0⟩ := by
  have read : ForwardingTag.read? .element "<p \x7b...cssTarget\x7d>".toList =
      some ⟨'p', [' '], ⟨[], "cssTarget".toList⟩, []⟩ := by decide +kernel
  obtain ⟨_, left, unchanged, _⟩ := resolved_again_iff read
  have kept := mt left.mpr (by decide +kernel)
  exact ⟨kept, unchanged kept⟩

/-- A spread directly in front of the dots of another brace: when it is removed, that brace gets the
dots. The tag keeps a spread, and a second pass puts the parent's ids in once more. -/
theorem resolved_tag_keeps_spread :
    ∃ tag : ForwardingTag,
      ForwardingTag.read? .element
        ("<div data-sveltesheet-ids=\x7b`$\x7bsvelteCssRuntimeId\x7d`\x7d " ++
          "\x7b\x7b...cssTarget\x7d...cssTarget\x7d>").toList = some tag ∧
      CssSpread.pattern.occursIn (tag.merged .element) = true ∧
      forwardScope .element (tag.merged .element) ≠ ⟨tag.merged .element, 0⟩ ∧
      forwardScope .element (tag.merged .element) =
        ⟨("<div data-sveltesheet-ids=\x7b`$\x7bdataSveltesheetIds\x7d " ++
          "$\x7bdataSveltesheetIds\x7d $\x7bsvelteCssRuntimeId\x7d`\x7d>").toList, 1⟩ :=
  ⟨⟨'d', "iv data-sveltesheet-ids=\x7b`$\x7bsvelteCssRuntimeId\x7d`\x7d \x7b".toList,
    ⟨[], "cssTarget".toList⟩, "...cssTarget\x7d".toList⟩, by decide +kernel, by decide +kernel,
    by decide +kernel, by decide +kernel⟩

end ScopedMarkup
