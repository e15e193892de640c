import Mathlib.Algebra.BigOperators.Group.List.Basic
import ScopedMarkup.Proofs.Forwarded

/-!
# Forwarding tag by tag

The last two passes are confined to the tags if every flat tag that they take in a tag ends in
it. Then they work tag by tag and keep the gaps, as scoping does. Each pass leaves the start
and the last `>` of a text in place, so what it writes for a tag is a text that starts a tag
of the same kind again.
-/

namespace ScopedMarkup

universe u v

/-- What a pattern takes in a written hit of the cut ends in that hit. -/
def Split.Confines {α : Type u} {β : Type v} (cut : Split β) (pattern : Pattern α)
    (write : β → List Char) : Prop :=
  ∀ front gap hit back, cut.hits = front ++ (gap, hit) :: back →
    pattern.Parts (write hit) ((⟨back, cut.tail⟩ : Split β).render write)

/-- The hit before the others and those behind it are confined one by one. -/
theorem Split.confines_cons_iff {α : Type u} {β : Type v} {pattern : Pattern α}
    {write : β → List Char} {gap tail : List Char} {hit : β} {others : List (List Char × β)} :
    (⟨(gap, hit) :: others, tail⟩ : Split β).Confines pattern write ↔
      pattern.Parts (write hit) ((⟨others, tail⟩ : Split β).render write) ∧
        (⟨others, tail⟩ : Split β).Confines pattern write :=
  forall_hits_cons_iff

/-- Whether hits are confined is decided hit by hit. -/
def Split.decideConfines {α : Type u} {β : Type v} [DecidableEq α] (pattern : Pattern α)
    (write : β → List Char) (tail : List Char) :
    (hits : List (List Char × β)) → Decidable ((⟨hits, tail⟩ : Split β).Confines pattern write)
  | [] => isTrue fun _ _ _ _ cutAt => absurd cutAt (by simp)
  | (_, _) :: others =>
    have := decideConfines pattern write tail others
    decidable_of_iff _ confines_cons_iff.symm

instance {α : Type u} {β : Type v} [DecidableEq α] (cut : Split β) (pattern : Pattern α)
    (write : β → List Char) : Decidable (cut.Confines pattern write) :=
  Split.decideConfines pattern write cut.tail cut.hits

/-- An edit keeps the last character of a text if every replacement ends with it. -/
theorem Pattern.edit_getLast {α : Type u} (pattern : Pattern α) (replace : α → Option (List Char))
    {c : Char} (written : ∀ input hit, pattern.read? input = some hit →
      ((replace hit).getD (pattern.text hit)).getLast? = some c)
    {text : List Char} (ends : text.getLast? = some c) :
    (pattern.edit replace text).text.getLast? = some c := by
  induction text using pattern.induction with
  | nil => simp at ends
  | skip first rest unread inductionHypothesis =>
    rw [pattern.edit_of_read_none replace first rest unread]
    cases rest with
    | nil => simpa [edit, Split.render] using ends
    | cons second others =>
      rw [List.getLast?_cons_cons] at ends
      rw [List.getLast?_cons, inductionHypothesis ends]
      rfl
  | hit first behind read inductionHypothesis =>
    rw [pattern.edit_append_of_read replace first behind read]
    cases behind with
    | nil => simpa [edit, Split.render] using written _ first read
    | cons second others =>
      rw [List.getLast?_append] at ends
      have lastBehind : (second :: others).getLast? = some c := by
        simpa [List.getLast?_cons] using ends
      rw [List.getLast?_append, inductionHypothesis lastBehind]
      rfl

/-- Removal keeps a silent text that ends with no blank. -/
theorem withoutSpreads_front {front behind : List Char} {c : Char} (ends : front.getLast? = some c)
    (solid : Text.isUnicodeBlank c = false)
    (silent : CssSpread.pattern.Silent front behind) :
    withoutSpreads (front ++ behind) = front ++ withoutSpreads behind := by
  rw [withoutSpreads, removals.split_append_of_silent front behind (silent_removals_iff.mpr silent),
    withoutSpreads]
  obtain ⟨hits, tail⟩ := removals.split behind
  cases hits with
  | nil => rfl
  | cons first others =>
    obtain ⟨gap, hit⟩ := first
    simp [Split.append, Text.trimEnd_append ends solid]

/-- What is removed ends with `}`. -/
theorem removal_getLast {input removed : List Char} (read : removal? input = some removed) :
    removed.getLast? = some '}' := by
  unfold removal? at read
  split at read
  · simp at read
  · split at read
    · rw [← Option.some.inj read, List.getLast?_append]
      rfl
    · rw [← Option.some.inj read, CssSpread.text, List.getLast?_append]
      rfl

/-- Removal keeps the `>` at the end of a text. -/
theorem withoutSpreads_getLast {text : List Char} (ends : text.getLast? = some '>') :
    (withoutSpreads text).getLast? = some '>' := by
  have whole := removals.render_split text
  have reads := removals.split_isRight text
  rw [withoutSpreads]
  cases cut : removals.split text with
  | mk hits tail =>
    rw [cut] at whole reads
    cases tail with
    | cons c rest =>
      rw [← whole, Split.render, List.getLast?_append] at ends
      rw [List.getLast?_append]
      simpa [List.getLast?_cons] using ends
    | nil =>
      exfalso
      rcases List.eq_nil_or_concat hits with rfl | ⟨front, ⟨gap, removed⟩, rfl⟩
      · rw [← whole] at ends
        simp [Split.render] at ends
      · rw [List.concat_eq_append] at whole reads
        have read := reads.hit front gap removed [] rfl
        have last := removal_getLast read
        rw [← whole] at ends
        simp [Split.render, removals, last] at ends

namespace ForwardingTag

variable {kind : TagKind}

/-- The opening of an attribute does not stand at a `<`. -/
theorem insertAfterFirst_open (kind : TagKind) (addition : List Char) (c : Char) (rest : List Char) :
    ∃ others, Text.insertAfterFirst kind.attributeOpening.toList addition ('<' :: c :: rest) =
      '<' :: c :: others := by
  have absent : kind.attributeOpening.toList.isPrefixOf ('<' :: c :: rest) = false := by
    cases kind <;> rfl
  obtain ⟨first, wanted, spelled⟩ : ∃ first wanted, kind.attributeOpening.toList = first :: wanted := by
    cases kind <;> exact ⟨_, _, rfl⟩
  rw [Text.insertAfterFirst, absent, if_neg Bool.false_ne_true, spelled, Text.insertAfterFirst]
  split
  · rename_i starts
    have same := (List.cons_prefix_cons.mp (List.isPrefixOf_iff_prefix.mp starts)).1
    exact ⟨_, by rw [same]; rfl⟩
  · exact ⟨_, rfl⟩

/-- Adding behind the opening of an attribute keeps a `>` at the end. -/
theorem insertAfterFirst_getLast (kind : TagKind) (addition : List Char) {text : List Char}
    (ends : text.getLast? = some '>') :
    (Text.insertAfterFirst kind.attributeOpening.toList addition text).getLast? = some '>' := by
  have wantedLast : kind.attributeOpening.toList.getLast? = some '`' := by
    cases kind <;> rfl
  induction text with
  | nil => simp at ends
  | cons c rest inductionHypothesis =>
    rw [Text.insertAfterFirst]
    split
    · rename_i starts
      obtain ⟨behind, joined⟩ := List.isPrefixOf_iff_prefix.mp starts
      rw [← joined, List.drop_left, List.getLast?_append]
      rw [← joined, List.getLast?_append, wantedLast] at ends
      cases behind with
      | nil => exact absurd (Option.some.inj ends) (by decide)
      | cons next others => simpa [List.getLast?_cons] using ends
    · cases rest with
      | nil => simpa [Text.insertAfterFirst] using ends
      | cons next others =>
        rw [List.getLast?_cons_cons] at ends
        have later := inductionHypothesis ends
        rw [← List.singleton_append, List.getLast?_append, later]
        rfl

/-- A tag made to forward starts as it did. -/
theorem merged_open {input : List Char} {tag : ForwardingTag} (read : read? kind input = some tag) :
    ∃ others, tag.merged kind = '<' :: tag.initial :: others := by
  obtain ⟨known, _⟩ := read_spec read
  obtain ⟨others, inserted⟩ := insertAfterFirst_open kind inheritedIdsEntry.toList tag.initial
    (tag.before ++ tag.spread.text ++ tag.after ++ ['>'])
  have spelled : tag.text = '<' :: tag.initial ::
      (tag.before ++ tag.spread.text ++ tag.after ++ ['>']) := rfl
  have letter : tag.initial.isAlpha = true :=
    (TagKind.isInitial_iff_isAlpha _).mp ⟨kind, known⟩
  have noBrace : '{' ∉ ['<', tag.initial] := by
    intro member
    have same : '{' = tag.initial := by simpa using member
    rw [← same] at letter
    exact absurd letter (by decide)
  have solid : Text.isUnicodeBlank tag.initial = false := by
    rw [Bool.eq_false_iff]
    intro blank
    simp only [Text.isUnicodeBlank, Text.inRanges, Text.unicodeBlankRanges, List.any_cons,
      List.any_nil, Bool.or_false, Bool.or_eq_true, Bool.and_eq_true, decide_eq_true_eq] at blank
    have range := TagKind.toNat_of_isInitial known
    omega
  have silent := CssSpread.silent_of_blocked (CssSpread.blocked_of_absent noBrace) others
  refine ⟨withoutSpreads others, ?_⟩
  rw [merged, spelled, inserted]
  exact @withoutSpreads_front ['<', tag.initial] others tag.initial rfl solid silent

/-- A tag made to forward ends with `>`. -/
theorem merged_getLast (kind : TagKind) (tag : ForwardingTag) :
    (tag.merged kind).getLast? = some '>' :=
  withoutSpreads_getLast (insertAfterFirst_getLast kind _ tag.text_getLast)

end ForwardingTag

/-- A pass keeps the `>` at the end of a text. -/
theorem forwardScope_getLast (kind : TagKind) {text : List Char} (ends : text.getLast? = some '>') :
    (forwardScope kind text).text.getLast? = some '>' :=
  (ForwardingTag.pattern kind).edit_getLast (fun tag => some (tag.merged kind))
    (fun _ hit _ => hit.merged_getLast kind) ends

/-- A pass keeps the first letter of a tag. -/
theorem forwardScope_open (kind : TagKind) {c : Char} (letter : c.isAlpha = true) (rest : List Char) :
    ∃ others, (forwardScope kind ('<' :: c :: rest)).text = '<' :: c :: others := by
  have notAngle : c ≠ '<' := by
    rintro rfl
    exact absurd letter (by decide)
  cases read : (ForwardingTag.pattern kind).read? ('<' :: c :: rest) with
  | none =>
    have silent : (ForwardingTag.pattern kind).Silent ['<', c] rest := by
      intro inside final present
      rcases List.suffix_cons_iff.mp final with rfl | within
      · exact read
      · rcases List.suffix_cons_iff.mp within with rfl | nothing
        · cases unread : (ForwardingTag.pattern kind).read? ([c] ++ rest) with
          | none => rfl
          | some hit =>
            obtain ⟨_, _, opened, _⟩ := TagKind.starts_iff.mp (ForwardingTag.starts_of_read unread)
            exact absurd (List.cons.inj opened).1 notAngle
        · exact absurd (List.suffix_nil.mp nothing) present
    exact ⟨_, congrArg Edit.text (forwardScope_append_of_unread silent)⟩
  | some hit =>
    obtain ⟨_, behind, joined⟩ := (ForwardingTag.pattern kind).text_of_read read
    have first : hit.initial = c := by
      have spelled : hit.text ++ behind = '<' :: c :: rest := joined
      rw [ForwardingTag.text] at spelled
      exact (List.cons.inj (List.cons.inj spelled).2).1
    have reading : ForwardingTag.read? kind ('<' :: c :: rest) = some hit := read
    obtain ⟨others, merged⟩ := ForwardingTag.merged_open reading
    rw [← joined] at read ⊢
    refine ⟨others ++ (forwardScope kind behind).text, ?_⟩
    rw [forwardScope_append_of_read read, merged, first]
    rfl

/-- A scoped tag ends with `>`. -/
theorem Tag.Settled.scopedText_getLast {tag : Tag} (settled : tag.Settled) (ids : InstanceIds) :
    (tag.scopedText ids).getLast? = some '>' := by
  rw [scopedText, rest, settled.closed, ← List.append_assoc, List.getLast?_append]
  rfl

/-- The flat tags that are taken in a tag end in it, in both passes. -/
structure Confined (ids : InstanceIds) (cut : Split Tag) : Prop where
  /-- In the pass over elements. -/
  elements : cut.Confines (ForwardingTag.pattern .element) (Tag.scopedText ids)
  /-- In the pass over components, which reads what the pass over elements wrote. -/
  components : cut.Confines (ForwardingTag.pattern .component) (Tag.elementForwarded ids)

theorem confined_iff {ids : InstanceIds} {cut : Split Tag} : Confined ids cut ↔
    cut.Confines (ForwardingTag.pattern .element) (Tag.scopedText ids) ∧
      cut.Confines (ForwardingTag.pattern .component) (Tag.elementForwarded ids) :=
  ⟨fun confined => ⟨confined.elements, confined.components⟩, fun ⟨first, second⟩ => ⟨first, second⟩⟩

instance (ids : InstanceIds) (cut : Split Tag) : Decidable (Confined ids cut) :=
  decidable_of_iff _ confined_iff.symm

/-- A tag as all passes leave it. -/
def Tag.resolvedText (ids : InstanceIds) (tag : Tag) : List Char :=
  (forwardScope .component (tag.elementForwarded ids)).text

/-- How often a tag is made to forward. -/
def Tag.resolvedPlaces (ids : InstanceIds) (tag : Tag) : Nat :=
  (forwardScope .element (tag.scopedText ids)).places +
    (forwardScope .component (tag.elementForwarded ids)).places

namespace Tidy

variable {cut : Split Tag} {ids : InstanceIds}

/-- A scoped tag starts with `<` and a letter. -/
theorem opened (tidy : Tidy cut) (ids : InstanceIds) : ∀ tag ∈ cut.values,
    ∃ c rest, tag.scopedText ids = '<' :: c :: rest ∧ c.isAlpha = true := by
  intro tag member
  obtain ⟨c, others, named, initial, _⟩ := (tidy.settled tag member).named
  refine ⟨c, others ++ tag.binding ids false ++ tag.rest, ?_,
    (TagKind.isInitial_iff_isAlpha c).mp ⟨tag.kind, initial⟩⟩
  rw [Tag.scopedText, Tag.head, named]
  rfl

/-- The pass over elements, if it is confined, makes each element forward by itself. -/
theorem forwardElements (tidy : Tidy cut)
    (confined : cut.Confines (ForwardingTag.pattern .element) (Tag.scopedText ids)) :
    forwardScope .element (cut.render (Tag.scopedText ids)) =
      ⟨cut.render (Tag.elementForwarded ids), (cut.values.map fun tag =>
        (forwardScope .element (tag.scopedText ids)).places).sum⟩ := by
  refine tidy.edit (ForwardingTag.pattern .element) (ForwardingTag.pattern_startsTags .element)
    (fun tag => some (tag.merged .element)) (Tag.scopedText ids) ?_ confined
  intro tag member
  obtain ⟨c, rest, spelled, _⟩ := tidy.opened ids tag member
  exact ⟨_, spelled⟩

/-- So does the pass over components behind it. -/
theorem forwardComponents (tidy : Tidy cut)
    (confined : cut.Confines (ForwardingTag.pattern .component) (Tag.elementForwarded ids)) :
    forwardScope .component (cut.render (Tag.elementForwarded ids)) =
      ⟨cut.render (Tag.resolvedText ids), (cut.values.map fun tag =>
        (forwardScope .component (tag.elementForwarded ids)).places).sum⟩ := by
  refine tidy.edit (ForwardingTag.pattern .component) (ForwardingTag.pattern_startsTags .component)
    (fun tag => some (tag.merged .component)) (Tag.elementForwarded ids) ?_ confined
  intro tag member
  obtain ⟨c, rest, spelled, letter⟩ := tidy.opened ids tag member
  obtain ⟨others, kept⟩ := forwardScope_open .element letter rest
  exact ⟨c :: others, by rw [Tag.elementForwarded, spelled, kept]⟩

/-- Confined passes make each tag forward by itself. -/
theorem forward (tidy : Tidy cut) (confined : Confined ids cut) :
    (forwardScope .component (forwardScope .element (cut.render (Tag.scopedText ids))).text).text =
        cut.render (Tag.resolvedText ids) ∧
      (forwardScope .element (cut.render (Tag.scopedText ids))).places +
        (forwardScope .component
          (forwardScope .element (cut.render (Tag.scopedText ids))).text).places =
            (cut.values.map (Tag.resolvedPlaces ids)).sum := by
  rw [tidy.forwardElements confined.elements]
  dsimp only
  rw [tidy.forwardComponents confined.components]
  refine ⟨rfl, ?_⟩
  exact List.sum_map_add.symm

end Tidy

/-- A source with the attributes of scoping, before scopes are forwarded. -/
def scopedSource (ids : InstanceIds) (source : List Char) : List Char :=
  (scopeComponents ids (scopeElements source).text).text

/-- The passes that forward scopes work on the scoped source. -/
theorem code_eq (ids : InstanceIds) (source : String) : (scopeSource ids source).code.toList =
    (forwardScope .component (forwardScope .element (scopedSource ids source.toList)).text).text :=
  String.toList_ofList

/-- Scoping writes a source whose tags start no others tag by tag. -/
theorem scopedSource_eq {source : List Char}
    (single : ∀ found ∈ scanTags source, Text.holdsTagStart (found.value.text.drop 1) = false)
    (ids : InstanceIds) :
    scopedSource ids source = (Tag.pattern.split source).render (Tag.scopedText ids) := by
  have spelled : (Tag.pattern.split source).render Tag.text = source := Tag.pattern.render_split _
  have alone : ∀ tag ∈ (Tag.pattern.split source).values,
      Text.holdsTagStart (tag.text.drop 1) = false := by
    intro tag member
    obtain ⟨found, scanned, rfl⟩ := exists_scanned member
    exact single found scanned
  have written := (scanned_split source).scope alone ids
  rw [spelled] at written
  exact written

/-- Scoping keeps a source if it keeps each tag. -/
theorem scopedSource_of_kept {source : List Char} {ids : InstanceIds}
    (single : ∀ found ∈ scanTags source, Text.holdsTagStart (found.value.text.drop 1) = false)
    (kept : ∀ found ∈ scanTags source, found.value.scopedText ids = found.value.text) :
    scopedSource ids source = source := by
  have spelled : (Tag.pattern.split source).render Tag.text = source := Tag.pattern.render_split _
  rw [scopedSource_eq single ids]
  refine Eq.trans (Split.render_congr fun tag member => ?_) spelled
  obtain ⟨found, scanned, rfl⟩ := exists_scanned member
  exact kept found scanned

/-- In particular it does so with a tidy source. -/
theorem Tidy.scopedSource_eq {source : List Char} (tidy : Tidy (Tag.pattern.split source))
    (ids : InstanceIds) :
    scopedSource ids source = (Tag.pattern.split source).render (Tag.scopedText ids) :=
  ScopedMarkup.scopedSource_eq
    (fun _ scanned => tidy.single _ (mem_values_of_scanned scanned)) ids

/-- The text and the count of a source to whose tags the passes are confined. -/
theorem Tidy.scopeSource_eq {source : String} (tidy : Tidy (Tag.pattern.split source.toList))
    {ids : InstanceIds} (confined : Confined ids (Tag.pattern.split source.toList)) :
    (scopeSource ids source).code.toList =
        (Tag.pattern.split source.toList).render (Tag.resolvedText ids) ∧
      (scopeSource ids source).cssTargetsResolved = UInt32.ofNat
        ((Tag.pattern.split source.toList).values.map (Tag.resolvedPlaces ids)).sum := by
  have forwarded := tidy.forward confined
  have counted : (scopeSource ids source).cssTargetsResolved = UInt32.ofNat
      ((forwardScope .element (scopedSource ids source.toList)).places +
        (forwardScope .component
          (forwardScope .element (scopedSource ids source.toList)).text).places) := rfl
  rw [code_eq, counted, tidy.scopedSource_eq ids, forwarded.1, forwarded.2]
  exact ⟨rfl, rfl⟩

end ScopedMarkup
