import ScopedMarkup.Proofs.Backwards

/-!
# Exempt tags

Exempt tags get no attribute. The passes that forward scopes do not know of them: they go by the
flat text, and they rewrite an exempt tag like any other when a flat spread begins before its first
`>`. So a source that is one exempt tag stays as it is exactly if no spread begins there.

A flat tag that is rewritten never comes out as it was. What is added holds no dot, and what is
removed holds three, so either dots are missing or nothing was removed and the text is longer.
-/

namespace ScopedMarkup

namespace Text

/-- An addition goes in at one place, or nothing is wanted in the text. -/
theorem insertAfterFirst_cases (wanted addition text : List Char) :
    insertAfterFirst wanted addition text = text ∨
      ∃ front back, text = front ++ (wanted ++ back) ∧
        insertAfterFirst wanted addition text = front ++ (wanted ++ (addition ++ back)) := by
  induction text with
  | nil => exact Or.inl rfl
  | cons c rest inductionHypothesis =>
    rw [insertAfterFirst]
    split
    · rename_i starts
      obtain ⟨back, joined⟩ := List.isPrefixOf_iff_prefix.mp starts
      refine Or.inr ⟨[], back, joined.symm, ?_⟩
      rw [← joined, List.drop_left, List.append_assoc]
      rfl
    · rcases inductionHypothesis with same | ⟨front, back, rfl, inserted⟩
      · exact Or.inl (congrArg (c :: ·) same)
      · exact Or.inr ⟨c :: front, back, rfl, congrArg (c :: ·) inserted⟩

end Text

/-- What is removed holds a dot. -/
theorem dot_mem_of_removal {input removed : List Char} (read : removal? input = some removed) :
    '.' ∈ removed := by
  obtain ⟨_, more, rfl⟩ := prefix_of_removal read
  obtain ⟨spread, reading⟩ := exists_removal_iff.mp ⟨removed, read⟩
  have closed : '}' ∈ removed := List.mem_of_getLast? (removal_getLast read)
  obtain ⟨behind, spelled⟩ :=
    CssSpread.eq_text_append_of_read (CssSpread.read_of_mem reading closed)
  rw [spelled]
  simp [CssSpread.text]

/-- What removal keeps and what it takes occur in the text. -/
theorem count_withoutSpreads (c : Char) (text : List Char) :
    (withoutSpreads text).count c + ((removals.split text).values.map (List.count c)).sum ≤
      text.count c := by
  have each : ∀ hits : List (List Char × List Char),
      (hits.flatMap fun hit => Text.trimEnd hit.1).count c +
          ((hits.map (·.2)).map (List.count c)).sum ≤
        (hits.flatMap fun hit => hit.1 ++ hit.2).count c := by
    intro hits
    induction hits with
    | nil => exact Nat.le_refl 0
    | cons first others inductionHypothesis =>
      have gap := (Text.trimEnd_isPrefix first.1).sublist.count_le c
      simp only [List.flatMap_cons, List.count_append, List.map_cons, List.sum_cons]
      omega
  have sizes := each (removals.split text).hits
  have whole : (removals.split text).hits.flatMap (fun hit => hit.1 ++ hit.2) ++
      (removals.split text).tail = text := removals.render_split text
  have counted := congrArg (List.count c) whole
  rw [List.count_append] at counted
  rw [withoutSpreads, List.count_append, Split.values]
  omega

/-- A text that keeps its dots has no ranges to be removed, and it is kept as a whole. -/
theorem removals_eq_nil {text : List Char} (dots : text.count '.' ≤ (withoutSpreads text).count '.') :
    (removals.split text).hits = [] ∧ withoutSpreads text = text := by
  have sizes := count_withoutSpreads '.' text
  have none : (removals.split text).hits = [] := by
    cases cut : (removals.split text).hits with
    | nil => rfl
    | cons first others =>
      have member : first.2 ∈ (removals.split text).values :=
        List.mem_map_of_mem (by rw [cut]; exact List.mem_cons_self)
      obtain ⟨_, _, _, read⟩ := removals.read_of_mem_values text first.2 member
      have dot := List.count_pos_iff.mpr (dot_mem_of_removal read)
      rw [Split.values, cut, List.map_cons, List.map_cons, List.sum_cons] at sizes
      omega
  have whole := removals.render_split text
  rw [Split.render, none] at whole
  refine ⟨none, ?_⟩
  rw [withoutSpreads, none]
  exact whole

namespace ForwardingTag

variable {kind : TagKind}

/-- A character that the parent's ids do not bring in occurs no more often in the rewritten tag. -/
theorem count_merged_le (tag : ForwardingTag) (kind : TagKind) {c : Char}
    (absent : c ∉ inheritedIdsEntry.toList) : (tag.merged kind).count c ≤ tag.text.count c := by
  refine Nat.le_trans (Nat.le_of_add_right_le (count_withoutSpreads c _)) ?_
  rcases Text.insertAfterFirst_cases kind.attributeOpening.toList inheritedIdsEntry.toList
    tag.text with same | ⟨front, back, spelled, inserted⟩
  · rw [same]
  · rw [inserted, spelled]
    simp only [List.count_append, List.count_eq_zero_of_not_mem absent, Nat.zero_add]
    exact Nat.le_refl _

/-- A flat tag has a range to be removed. -/
theorem removals_ne_nil {input : List Char} {tag : ForwardingTag}
    (read : read? kind input = some tag) : (removals.split tag.text).hits ≠ [] := by
  obtain ⟨_, _, _, _, _, reading⟩ := read_spec read
  have readHere : CssSpread.read? (tag.spread.text ++ (tag.after ++ ['>'])) = some tag.spread :=
    CssSpread.read_eq_some_iff.mpr ⟨⟨_, rfl⟩, (CssSpread.read_eq_some_iff.mp reading).2⟩
  have final : tag.spread.text ++ (tag.after ++ ['>']) <:+ tag.text :=
    ⟨'<' :: tag.initial :: tag.before, by simp [text]⟩
  obtain ⟨removed, taken⟩ := exists_removal_iff.mpr ⟨tag.spread, readHere⟩
  have occurs : removals.occursIn tag.text = true :=
    (removals.occursIn_iff tag.text).mpr ⟨_, removed, final, by simp [CssSpread.text], taken⟩
  intro none
  simp [Pattern.occursIn, none] at occurs

/-- A flat tag is rewritten to another text. -/
theorem merged_ne_text {input : List Char} {tag : ForwardingTag}
    (read : read? kind input = some tag) : tag.merged kind ≠ tag.text := by
  intro unchanged
  have dotless : '.' ∉ inheritedIdsEntry.toList := by decide
  rcases Text.insertAfterFirst_cases kind.attributeOpening.toList inheritedIdsEntry.toList
    tag.text with same | ⟨front, back, spelled, inserted⟩
  · -- Nothing is added, so the dots of the removed spreads are missing.
    rw [merged, same] at unchanged
    exact removals_ne_nil read (removals_eq_nil (by rw [unchanged])).1
  · -- What is added makes up for no dot, so nothing is removed and the text is longer.
    have dots : (front ++ (kind.attributeOpening.toList ++ (inheritedIdsEntry.toList ++ back))).count
        '.' = tag.text.count '.' := by
      rw [spelled]
      simp only [List.count_append, List.count_eq_zero_of_not_mem dotless, Nat.zero_add]
    rw [merged, inserted] at unchanged
    have kept := (removals_eq_nil (by rw [unchanged, dots])).2
    rw [kept, spelled] at unchanged
    have sizes := congrArg List.length unchanged
    have entry : 0 < inheritedIdsEntry.toList.length := by decide
    simp only [List.length_append] at sizes
    omega

/-- A flat tag is read at the head of a text exactly if the text starts a tag and a spread begins
before its first `>`, as long as the text ends with `>`. -/
theorem read_eq_none_iff {text : List Char} (starts : kind.starts text = true)
    (ends : text.getLast? = some '>') :
    read? kind text = none ↔ ∀ before inside, text = before ++ inside → '>' ∉ before →
      CssSpread.read? inside = none := by
  constructor
  · rintro unread before inside rfl free
    cases reading : CssSpread.read? inside with
    | none => rfl
    | some spread =>
      obtain ⟨left, rfl⟩ := CssSpread.eq_text_append_of_read reading
      have angle : '>' ∈ left := by
        have present : left ≠ [] := by
          rintro rfl
          rw [List.append_nil, CssSpread.text, ← List.append_assoc, List.getLast?_append] at ends
          exact absurd (show some '}' = some '>' from ends) (by decide)
        refine List.mem_of_getLast? (a := '>') ?_
        rw [← ends, ← List.append_assoc]
        exact (Text.getLast?_of_suffix (List.suffix_append _ left) present).symm
      have found := read_isSome starts free reading (by rw [List.drop_left]; exact angle)
      simp [unread] at found
  · intro absent
    cases read : read? kind text with
    | none => rfl
    | some tag =>
      obtain ⟨_, _, _, behind, spelled, reading⟩ := read_spec read
      rw [absent _ _ spelled (angle_not_mem_front read)] at reading
      exact absurd reading (by simp)

end ForwardingTag

/-- The pass over components does nothing to a text that starts one tag, of an element. -/
theorem forwardScope_component_of_element {text : List Char}
    (starts : TagKind.element.starts text = true) (free : '<' ∉ text.drop 1) :
    (forwardScope .component text).text = text := by
  refine congrArg Edit.text (forwardScope_of_read_none (Text.holdsTagStart_of_absent free) ?_)
  cases read : ForwardingTag.read? .component text with
  | none => rfl
  | some hit =>
    have other := ForwardingTag.starts_of_read read
    rw [TagKind.starts_other starts (by decide)] at other
    exact absurd other Bool.false_ne_true

/-- What the pass over elements writes for a text with one `<`, at its head, is such a text. -/
theorem angle_not_mem_merged {text behind : List Char} {hit : ForwardingTag}
    (read : ForwardingTag.read? .element text = some hit) (spelled : text = hit.text ++ behind)
    (free : '<' ∉ text.drop 1) :
    TagKind.element.starts (hit.merged .element ++ behind) = true ∧
      '<' ∉ (hit.merged .element ++ behind).drop 1 := by
  obtain ⟨known, _⟩ := ForwardingTag.read_spec read
  obtain ⟨others, opened⟩ := ForwardingTag.merged_open read
  have once : text.count '<' = 1 := by
    obtain ⟨c, rest, rfl, _⟩ := TagKind.starts_iff.mp (ForwardingTag.starts_of_read read)
    have absent : '<' ∉ c :: rest := free
    rw [List.count_cons_self, List.count_eq_zero_of_not_mem absent]
  have fewer : (hit.merged .element ++ behind).count '<' ≤ 1 := by
    rw [← once, spelled, List.count_append, List.count_append]
    exact Nat.add_le_add_right (hit.count_merged_le .element (by decide)) _
  rw [opened] at fewer ⊢
  refine ⟨known, fun member => ?_⟩
  have positive : 0 < (hit.initial :: others ++ behind).count '<' := List.count_pos_iff.mpr member
  change ('<' :: (hit.initial :: others ++ behind)).count '<' ≤ 1 at fewer
  rw [List.count_cons_self] at fewer
  omega

/-- Both passes over such a text leave it as it is exactly if no flat tag is read at its head. -/
theorem forwardScope_both_eq_iff {text : List Char} (starts : TagKind.element.starts text = true)
    (free : '<' ∉ text.drop 1) :
    (forwardScope .component (forwardScope .element text).text).text = text ↔
      ForwardingTag.read? .element text = none := by
  cases read : ForwardingTag.read? .element text with
  | none =>
    have unchanged := forwardScope_of_read_none (Text.holdsTagStart_of_absent free) read
    rw [unchanged, forwardScope_component_of_element starts free]
    simp
  | some hit =>
    obtain ⟨behind, spelled⟩ := ForwardingTag.eq_text_append_of_read read
    have written := forwardScope_of_read (Text.holdsTagStart_of_absent free) read spelled
    obtain ⟨startsStill, freeStill⟩ := angle_not_mem_merged read spelled free
    rw [written, forwardScope_component_of_element startsStill freeStill]
    constructor
    · intro same
      rw [spelled] at same
      exact absurd (List.append_cancel_right same) (ForwardingTag.merged_ne_text read)
    · intro impossible
      simp at impossible

/-- Scoping leaves a source of exempt tags that start no others as it is. -/
theorem scopedSource_of_exempt {source : List Char} (ids : InstanceIds)
    (exempt : ∀ found ∈ scanTags source, found.value.isExempt = true)
    (single : ∀ found ∈ scanTags source, Text.holdsTagStart (found.value.text.drop 1) = false) :
    scopedSource ids source = source := by
  apply scopedSource_of_kept single
  intro found scanned
  have bare : found.value.binding ids false = [] := by
    simp [Tag.binding, Tag.isScoped, exempt found scanned]
  rw [Tag.scopedText, bare, List.append_nil, Tag.text_eq_head_append]

/-- A source that is one exempt tag stays as it is exactly if no flat spread begins before its
first `>`. -/
theorem exempt_tag_kept_iff {source : String} {found : Located Tag}
    (scanned : scanTags source.toList = [found]) (whole : found.value.text = source.toList)
    (closed : found.value.isClosed = true) (exempt : found.value.isExempt = true)
    (free : '<' ∉ source.toList.drop 1) (ids : InstanceIds) :
    addAttributesToTags ids source = source ↔
      ∀ before inside, source.toList = before ++ inside → '>' ∉ before →
        CssSpread.read? inside = none := by
  have stands : found.value.Stands [] := stands_of_scanned (scanned ▸ List.mem_singleton_self found)
  have element : found.value.kind = .element := by
    cases kind : found.value.kind with
    | element => rfl
    | component => simp [stands.named.component_not_exempt kind] at exempt
  have starts : TagKind.element.starts source.toList = true := by
    rw [← whole, ← element]
    exact stands.named.starts_text
  have ends : source.toList.getLast? = some '>' := by
    rw [← whole, (stands.settled closed).text_eq, ← List.append_assoc, List.getLast?_append]
    rfl
  have kept : scopedSource ids source.toList = source.toList := by
    refine scopedSource_of_exempt ids ?_ ?_
    · rw [scanned]
      simpa using exempt
    · rw [scanned]
      simpa [whole] using Text.holdsTagStart_of_absent free
  have code : addAttributesToTags ids source = source ↔
      (forwardScope .component (forwardScope .element source.toList).text).text = source.toList := by
    rw [← String.toList_inj, addAttributesToTags, code_eq, kept]
  rw [code, forwardScope_both_eq_iff starts free]
  exact ForwardingTag.read_eq_none_iff starts ends

/-- A style tag without braces. -/
theorem exempt_tag_kept_here :
    addAttributesToTags .empty "<style lang='scss'>" = "<style lang='scss'>" := by
  refine (exempt_tag_kept_iff rfl (by decide +kernel) (by decide +kernel) (by decide +kernel)
    (by decide +kernel) .empty).mpr ?_
  intro before inside spelled _
  cases read : CssSpread.read? inside with
  | none => rfl
  | some spread =>
    obtain ⟨rest, rfl⟩ := (CssSpread.opens_of_read read).eq_cons
    have member : '{' ∈ "<style lang='scss'>".toList := by
      rw [spelled]
      simp
    exact absurd member (by decide +kernel)

/-- A script tag that is rewritten: it carries a spread, which is removed. -/
theorem exempt_tag_rewritten :
    ∃ found, scanTags "<script \x7b...cssTarget\x7d>".toList = [found] ∧
      found.value.text = "<script \x7b...cssTarget\x7d>".toList ∧ found.value.isClosed = true ∧
      found.value.isExempt = true ∧ '<' ∉ "<script \x7b...cssTarget\x7d>".toList.drop 1 ∧
      addAttributesToTags .empty "<script \x7b...cssTarget\x7d>" = "<script>" := by
  refine ⟨_, rfl, ?_⟩
  decide +kernel

end ScopedMarkup
