import ScopedMarkup.Proofs.Instances
import ScopedMarkup.Proofs.Spans

/-!
# Openings and scanned tags

The passes that scope a text find openings in it by themselves. They know nothing of quotes, braces
and pieces, and the scan knows nothing of words. In a source in which no tag starts within another
one they agree all the same: the openings of a kind are the scanned tags of the kind whose names end
at a blank or `>`. They begin where the tags do, and reach to the ends of the names.

So the counts of a scoped source can be told from the scan. The second pass reads what the first one
has written, but it finds the same openings of components there as in the source.
-/

namespace ScopedMarkup

namespace Pattern

variable {α β : Type} {pattern : Pattern α}

/-- Behind a silent text hits are where they are in the rest. -/
theorem locate_append_of_silent {first second : List Char} (silent : pattern.Silent first second)
    (position : Position) :
    pattern.locate position (first ++ second) = pattern.locate (position.after first) second := by
  rw [locate, pattern.split_append_of_silent first second silent, locateHits_joined]
  rfl

/-- In a cut that is cut further, the places are those within the hits. -/
theorem locateHits_refine (pattern : Pattern α) (other : Pattern β) (inner : β → Split α)
    (same : ∀ hit, (inner hit).render pattern.text = other.text hit) (cut : Split β)
    (position : Position) : pattern.locateHits position (cut.refine inner).hits =
      (other.locateHits position cut.hits).flatMap fun found =>
        pattern.locateHits found.position (inner found.value).hits := by
  obtain ⟨hits, tail⟩ := cut
  induction hits generalizing position with
  | nil => rfl
  | cons first others inductionHypothesis =>
    rw [Split.refine, List.foldr_cons, locateHits_joined, locateHits_joined, same]
    exact congrArg (pattern.locateHits (position.after first.1) (inner first.2).hits ++ ·)
      (inductionHypothesis ((position.after first.1).after (other.text first.2)))

/-- In a text that is cut at the hits of another pattern, the hits are those in its hits, if the
gaps are silent and the hits are parted from what is behind them. -/
theorem locate_render (pattern : Pattern α) (other : Pattern β) (cut : Split β)
    (position : Position) (tail : pattern.Silent cut.tail [])
    (gaps : ∀ front gap hit back, cut.hits = front ++ (gap, hit) :: back →
      pattern.Silent gap (other.text hit ++ (⟨back, cut.tail⟩ : Split β).render other.text))
    (hits : ∀ front gap hit back, cut.hits = front ++ (gap, hit) :: back →
      pattern.Parts (other.text hit) ((⟨back, cut.tail⟩ : Split β).render other.text)) :
    pattern.locate position (cut.render other.text) =
      (other.locateHits position cut.hits).flatMap fun found =>
        pattern.locate found.position (other.text found.value) := by
  rw [locate, pattern.split_render_of_parts cut other.text tail gaps hits]
  exact pattern.locateHits_refine other _ (fun hit => pattern.render_split (other.text hit)) cut
    position

end Pattern

namespace Tag

/-- Whether a tag is of a kind and its name ends as openings do. -/
def opensKind (kind : TagKind) (tag : Tag) : Bool := tag.kind == kind && tag.isOpening

/-- In a tag that starts no other its own opening is found, if it is of the kind. -/
theorem Stands.locate_openings {tag : Tag} (stands : tag.Stands [])
    (single : Text.holdsTagStart (tag.text.drop 1) = false) (kind : TagKind) (position : Position) :
    (Opening.pattern kind).locate position tag.text =
      if tag.opensKind kind then [⟨position, ⟨tag.name⟩⟩] else [] := by
  by_cases same : tag.kind = kind
  · subst same
    rw [Pattern.locate, stands.split_own single]
    by_cases opens : tag.isOpening = true <;> simp [opensKind, opens, Pattern.locateHits]
  · have silent := Opening.silent_other stands.named.starts_text single (Ne.symm same)
    have nothing := Pattern.locate_append_of_silent silent position
    rw [List.append_nil] at nothing
    have unfound : opensKind kind tag = false := by simp [opensKind, same]
    rw [unfound, if_neg Bool.false_ne_true]
    exact nothing

end Tag

/-- A condition on hits may be asked of each, or of the whole list. -/
theorem flatMap_if_eq_map_filter {α β : Type} (holds : α → Bool) (change : α → β) (list : List α) :
    (list.flatMap fun one => if holds one then [change one] else []) =
      (list.filter holds).map change := by
  induction list with
  | nil => rfl
  | cons first others inductionHypothesis =>
    rw [List.flatMap_cons, inductionHypothesis]
    cases kept : holds first <;> simp [kept]

/-- The openings of a kind in a source in which no tag starts within another one are those of its
tags. -/
theorem locate_openings {source : List Char}
    (single : ∀ found ∈ scanTags source, Text.holdsTagStart (found.value.text.drop 1) = false)
    (kind : TagKind) : (Opening.pattern kind).locate Position.start source =
      ((scanTags source).filter fun found => found.value.opensKind kind).map
        fun found => ⟨found.position, ⟨found.value.name⟩⟩ := by
  have scanned := scanned_split source
  have startsTags := Opening.pattern_startsTags kind
  have located := (Opening.pattern kind).locate_render Tag.pattern
    (Tag.pattern.split source) Position.start (startsTags.silent scanned.tail rfl)
    (scanned.silent_gap startsTags fun _ _ => ⟨_, rfl⟩) (scanned.parts_opening kind)
  rw [Tag.pattern.render_split] at located
  rw [located, ← flatMap_if_eq_map_filter]
  refine List.flatMap_congr fun found member => ?_
  have stands : found.value.Stands [] := stands_of_scanned member
  exact stands.locate_openings (single found member) kind found.position

namespace TagSpan

/-- The range of the `<` and the name of a tag. -/
def openingRange (span : TagSpan) : Nat × Nat :=
  (span.start, span.start + 1 + Text.byteLength span.name.toList)

/-- Whether a blank or `>` stands directly behind the name of a tag in its source. -/
def opensIn (source : List Char) (span : TagSpan) : Bool :=
  (Text.fromByte? span.openingRange.2 source).any Opening.endsBefore

/-- Whether a tag is of a kind and a blank or `>` stands directly behind its name. -/
def opensKind (kind : TagKind) (source : List Char) (span : TagSpan) : Bool :=
  span.kind == kind && span.opensIn source

/-- The end of a name can be seen from the source. -/
theorem opensKind_ofLocated {source : List Char} {found : Located Tag}
    (scanned : found ∈ scanTags source) (kind : TagKind) :
    (ofLocated found).opensKind kind source = found.value.opensKind kind := by
  obtain ⟨before, behind, rfl, stands, placed⟩ := exists_around_of_scanned scanned
  have left : Text.fromByte? (ofLocated found).openingRange.2
      (before ++ (found.value.text ++ behind)) = some (found.value.rest ++ behind) := by
    have offset : (ofLocated found).openingRange.2 =
        Text.byteLength (before ++ found.value.head) := by
      have size : '<'.utf8Size = 1 := by decide
      show found.position.offset + 1 + Text.byteLength (String.ofList found.value.name).toList = _
      rw [String.toList_ofList, Text.byteLength_append, Tag.head, Text.byteLength_cons, size, placed,
        Nat.add_assoc]
    rw [offset, Tag.text_eq_head_append, List.append_assoc, ← List.append_assoc before]
    exact Text.fromByte?_append _ _
  have ends : Opening.endsBefore (found.value.rest ++ behind) = found.value.isOpening := by
    rw [Tag.isOpening]
    cases spelled : found.value.rest with
    | cons next others => rfl
    | nil =>
      rcases stands.edge with angle | nothing
      · rw [spelled] at angle
        cases angle
      · rw [nothing]
        rfl
  rw [opensKind, opensIn, left, Option.any_some, ends]
  rfl

end TagSpan

/-- The tags of a scan that are openings of a kind are those whose records say so. -/
theorem filter_scanTags (source : List Char) (kind : TagKind) :
    ((scanTags source).map TagSpan.ofLocated).filter (TagSpan.opensKind kind source) =
      ((scanTags source).filter fun found => found.value.opensKind kind).map TagSpan.ofLocated := by
  rw [List.filter_map]
  refine congrArg (List.map TagSpan.ofLocated) (List.filter_congr fun found scanned => ?_)
  exact TagSpan.opensKind_ofLocated scanned kind

/-- The names of the openings of a kind are those of the tags. -/
theorem values_openings {source : List Char}
    (single : ∀ found ∈ scanTags source, Text.holdsTagStart (found.value.text.drop 1) = false)
    (kind : TagKind) : ((Opening.pattern kind).split source).values =
      (((scanTags source).map TagSpan.ofLocated).filter (TagSpan.opensKind kind source)).map
        fun span => ⟨span.name.toList⟩ := by
  rw [← Pattern.locate_map_value _ Position.start, locate_openings single, filter_scanTags,
    List.map_map, List.map_map]
  refine List.map_congr_left fun found _ => ?_
  simp [TagSpan.ofLocated]

/-- The pass over elements counts those that are not exempt. -/
theorem places_scopeElements (text : List Char) : (scopeElements text).places =
    ((Opening.pattern .element).split text).values.countP fun opening => !opening.isExempt := by
  refine List.countP_congr fun opening _ => ?_
  cases exempt : opening.isExempt <;> simp [exempt]

/-- The pass over components counts all of them, and the pass over elements before it does not
matter. -/
theorem places_scopeComponents (ids : InstanceIds) (text : List Char) :
    (scopeComponents ids (scopeElements text).text).places =
      ((Opening.pattern .component).split text).values.length := by
  rw [← Word.values_scopeElements text, scopeComponents, Pattern.edit]
  exact List.countP_eq_length.mpr fun _ _ => rfl

/-- In a source in which no tag starts within another one, the openings of a kind are the scanned
tags of the kind with a blank or `>` directly behind their names, each from its `<` to the end of
its name. The counts of the scoped source are the numbers of these tags, without the exempt ones. -/
theorem openings_are_scanned_tags (ids : InstanceIds) (source : String)
    (single : ∀ found ∈ scanTags source.toList,
      Text.holdsTagStart (found.value.text.drop 1) = false) :
    (∀ kind, (Opening.pattern kind).ranges source.toList =
      (((scanTags source.toList).map TagSpan.ofLocated).filter
        (TagSpan.opensKind kind source.toList)).map TagSpan.openingRange) ∧
    (scopeSource ids source).tagsScoped =
      UInt32.ofNat (((scanTags source.toList).map TagSpan.ofLocated).countP fun span =>
        span.opensKind .element source.toList && !isExemptName span.name.toList) ∧
    (scopeSource ids source).componentsScoped =
      UInt32.ofNat (((scanTags source.toList).map TagSpan.ofLocated).countP
        (TagSpan.opensKind .component source.toList)) := by
  refine ⟨fun kind => ?_, ?_, ?_⟩
  · rw [Pattern.ranges, locate_openings single, filter_scanTags, List.map_map, List.map_map]
    refine List.map_congr_left fun found _ => ?_
    have size : '<'.utf8Size = 1 := by decide
    simp [Pattern.stopOf, Opening.pattern, Opening.text, TagSpan.openingRange, TagSpan.ofLocated, size,
      Nat.add_assoc]
  · have places : (scopeElements source.toList).places =
        ((scanTags source.toList).map TagSpan.ofLocated).countP fun span =>
          span.opensKind .element source.toList && !isExemptName span.name.toList := by
      rw [places_scopeElements, values_openings single, List.countP_map, List.countP_filter]
      refine List.countP_congr fun span _ => ?_
      rw [Bool.and_comm]
      rfl
    rw [scopeSource, places]
  · have places : (scopeComponents ids (scopeElements source.toList).text).places =
        ((scanTags source.toList).map TagSpan.ofLocated).countP
          (TagSpan.opensKind .component source.toList) := by
      rw [places_scopeComponents, values_openings single, List.length_map, List.countP_eq_length_filter]
    rw [scopeSource, places]

/-- A `<` in a quoted value, an exempt element, a component, and a name that ends at a `/`. -/
theorem openings_are_scanned_tags_mixed :
    (Opening.pattern .element).ranges "<p class='1 < 2'><script><Card x /><br/>".toList =
        [(0, 2), (17, 24)] ∧
      (Opening.pattern .component).ranges "<p class='1 < 2'><script><Card x /><br/>".toList =
        [(25, 30)] ∧
      (scopeSource .empty "<p class='1 < 2'><script><Card x /><br/>").tagsScoped = 1 ∧
      (scopeSource .empty "<p class='1 < 2'><script><Card x /><br/>").componentsScoped = 1 := by
  obtain ⟨ranges, tags, components⟩ := openings_are_scanned_tags .empty
    "<p class='1 < 2'><script><Card x /><br/>" (by decide +kernel)
  exact ⟨(ranges .element).trans (by decide +kernel), (ranges .component).trans (by decide +kernel),
    tags.trans (by decide +kernel), components.trans (by decide +kernel)⟩

end ScopedMarkup
