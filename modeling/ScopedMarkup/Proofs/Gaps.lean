import ScopedMarkup.Proofs.ClosedSpreads

/-!
# What stands between the tags

Strict mode is meant to keep the passes away from the text between the tags. It does so as long
as the passes are confined to the tags and no name is torn. A source without diagnostics may
still hold a spread that is opened in a tag, in a quoted value say, and meets its first `}`
only behind the `>` of the tag. If `cssTarget` stands in between, the flat tag goes over the
end of the tag, and what stands there is removed with the spread.

The condition is also necessary when each flat tag is rewritten to a text without a `>` before
its end. Only then is a rewritten text known to end where its tag ends.

Confinement speaks of the texts that the passes hand on. The tags of the source tell it as well:
the passes are confined if each tag closes the spreads that are opened in it.
-/

namespace ScopedMarkup

/-- A text that keeps what stands before, between and behind the tags of a source. In place of
each tag it has a text that begins with `<` and the name of the tag and ends with `>`. -/
def KeepsGaps (source text : List Char) : Prop :=
  (Tag.pattern.split source).Written (fun tag part _ => tag.Keeps part) text

/-- Both passes rewrite flat tags to texts that hold no `>` before their ends. -/
structure Cleared (ids : InstanceIds) (source : List Char) : Prop where
  /-- The pass over elements. -/
  elements : ForwardingTag.Clears .element (scopedSource ids source)
  /-- The pass over components. -/
  components : ForwardingTag.Clears .component (forwardScope .element (scopedSource ids source)).text

namespace Tag

variable {tag : Tag} {ids : InstanceIds}

/-- The passes keep the `>` at the end of a tag. -/
theorem Settled.resolvedText_getLast (settled : tag.Settled) (ids : InstanceIds) :
    (tag.resolvedText ids).getLast? = some '>' :=
  forwardScope_getLast .component (forwardScope_getLast .element (settled.scopedText_getLast ids))

/-- The passes keep the name of a tag without faults that is not torn. -/
theorem Orderly.keeps (orderly : tag.Orderly) (avoids : ids.Avoids ['<', '>', '{', '}']) :
    tag.Keeps (tag.resolvedText ids) := by
  refine ⟨?_, orderly.settled.resolvedText_getLast ids⟩
  rw [resolvedText, orderly.forwardScope_component avoids, forwardedText, List.append_assoc]
  exact List.prefix_append _ _

/-- What the names of exempt tags have in common. -/
theorem head_of_isExempt (exempt : tag.isExempt = true) :
    'd' ∉ tag.head ∧ '{' ∉ tag.head ∧ tag.name.head? = some 's' ∧ '<' ∉ tag.name ∧
      ∃ c, tag.head.getLast? = some c ∧ Text.isUnicodeBlank c = false := by
  rw [isExempt, isExemptName, Bool.or_eq_true, beq_iff_eq, beq_iff_eq] at exempt
  rcases exempt with named | named
  · rw [head, named]
    exact ⟨by decide, by decide, by decide, by decide, 't', by decide, by decide⟩
  · rw [head, named]
    exact ⟨by decide, by decide, by decide, by decide, 'e', by decide, by decide⟩

/-- Exempt tags are elements. -/
theorem Settled.kind_of_isExempt (settled : tag.Settled) (exempt : tag.isExempt = true) :
    tag.kind = .element := by
  obtain ⟨_, _, small, _⟩ := head_of_isExempt exempt
  obtain ⟨first, others, named, initial, _⟩ := settled.named
  rw [named] at small
  have letter : first = 's' := by simpa using small
  subst letter
  cases kind : tag.kind with
  | element => rfl
  | component =>
    rw [kind] at initial
    exact absurd initial (by decide)

/-- The attribute of an element does not begin in the head of an exempt tag. -/
theorem opening_absent_of_isExempt (exempt : tag.isExempt = true) (shown : List Char) :
    ∀ inside, inside <:+ tag.head → inside ≠ [] →
      ¬TagKind.element.attributeOpening.toList <+: inside ++ shown := by
  obtain ⟨unmarked, _⟩ := head_of_isExempt exempt
  intro inside final present initial
  obtain ⟨c, others, rfl⟩ := List.exists_cons_of_ne_nil present
  have same : 'd' = c := (List.cons_prefix_cons.mp initial).1
  exact unmarked (same ▸ final.subset List.mem_cons_self)

/-- The pass over elements may rewrite an exempt tag, but not its head. -/
theorem Settled.head_prefix_elementForwarded (settled : tag.Settled) (exempt : tag.isExempt = true)
    (single : Text.holdsTagStart (tag.text.drop 1) = false)
    (avoids : ids.Avoids ['<', '>', '{', '}']) : tag.head <+: tag.elementForwarded ids := by
  obtain ⟨_, braceless, _, _, last, ends, solid⟩ := head_of_isExempt exempt
  have bare : tag.isScoped = false := by simp [isScoped, exempt]
  have lone := settled.lone_scopedText single (@angle_not_mem_binding tag ids avoids false).1
  cases read : ForwardingTag.read? .element (tag.scopedText ids) with
  | none =>
    rw [elementForwarded, forwardScope_of_read_none lone.free read, scopedText, List.append_assoc]
    exact List.prefix_append _ _
  | some hit =>
    obtain ⟨shown, behind, spelled, hitText⟩ := settled.hit_shape avoids (by
      rw [settled.kind_of_isExempt exempt]
      exact read)
    have joined : tag.scopedText ids = hit.text ++ behind := by
      rw [hitText, scopedText, spelled, List.append_assoc, List.append_assoc, List.append_assoc]
    have written := forwardScope_of_read lone.free read joined
    rw [binding, bare, if_neg Bool.false_ne_true, List.append_nil] at hitText
    have silent := CssSpread.silent_of_blocked (CssSpread.blocked_of_absent braceless)
      (Text.insertAfterFirst TagKind.element.attributeOpening.toList inheritedIdsEntry.toList shown)
    rw [elementForwarded, written, ForwardingTag.merged, hitText,
      Text.insertAfterFirst_append _ (opening_absent_of_isExempt exempt shown),
      withoutSpreads_front ends solid silent, List.append_assoc]
    exact List.prefix_append _ _

/-- No component begins in the head of an exempt tag. -/
theorem Settled.silent_head_of_isExempt (settled : tag.Settled) (exempt : tag.isExempt = true)
    (more : List Char) : (ForwardingTag.pattern .component).Silent tag.head more := by
  obtain ⟨_, _, small, closedName, _⟩ := head_of_isExempt exempt
  intro inside final present
  cases read : (ForwardingTag.pattern .component).read? (inside ++ more) with
  | none => rfl
  | some hit =>
    obtain ⟨c, others, spelled, initial⟩ := TagKind.starts_iff.mp (ForwardingTag.starts_of_read read)
    rcases List.suffix_cons_iff.mp final with rfl | within
    · obtain ⟨named, behind, spelledName, _⟩ := settled.named
      rw [spelledName] at small
      have letter : named = 's' := by simpa using small
      rw [spelledName] at spelled
      have same : named = c := (List.cons.inj (List.cons.inj spelled).2).1
      rw [← same, letter] at initial
      exact absurd initial (by decide)
    · obtain ⟨next, rest, rfl⟩ := List.exists_cons_of_ne_nil present
      have same : next = '<' := (List.cons.inj spelled).1
      exact absurd (same ▸ within.subset List.mem_cons_self) closedName

/-- The passes keep the name of an exempt tag. -/
theorem Settled.keeps_exempt (settled : tag.Settled) (exempt : tag.isExempt = true)
    (single : Text.holdsTagStart (tag.text.drop 1) = false)
    (avoids : ids.Avoids ['<', '>', '{', '}']) : tag.Keeps (tag.resolvedText ids) := by
  refine ⟨?_, settled.resolvedText_getLast ids⟩
  obtain ⟨more, first⟩ := settled.head_prefix_elementForwarded exempt single avoids
  rw [resolvedText, ← first,
    forwardScope_append_of_unread (settled.silent_head_of_isExempt exempt more)]
  exact List.prefix_append _ _

end Tag

/-- In strict mode a source is scoped if it has no diagnostics, and only then. -/
theorem outcome_strict {ids : InstanceIds} {options : PreprocessOptions} {source : String}
    {result : PreprocessResult} (strict : options.strict = true)
    (outcome : (preprocess ids options source).outcome = .ok result) :
    diagnose ids options.filePath source.toList = [] ∧ result = scopeSource ids source := by
  unfold preprocess at outcome
  rw [strict, if_pos rfl] at outcome
  cases found : diagnose ids options.filePath source.toList with
  | nil =>
    rw [found] at outcome
    exact ⟨rfl, (Except.ok.inj outcome).symm⟩
  | cons first others =>
    rw [found] at outcome
    exact absurd outcome (by simp)

/-- Confined passes keep what stands between the tags of a source without diagnostics, if no name
is torn. -/
theorem keepsGaps_of_confined {ids : InstanceIds} {file source : String}
    (accepted : diagnose ids file source.toList = [])
    (tidy : Tidy (Tag.pattern.split source.toList)) (avoids : ids.Avoids ['<', '>', '{', '}'])
    (confined : Confined ids (Tag.pattern.split source.toList))
    (untorn : ∀ found ∈ scanTags source.toList, ¬found.value.TearsName) :
    KeepsGaps source.toList (scopeSource ids source).code.toList := by
  rw [(tidy.scopeSource_eq confined).1]
  refine Split.written_render _ _ fun front gap tag back cutAt => ?_
  have member := tidy.mem_values cutAt
  obtain ⟨found, scanned, rfl⟩ := exists_scanned member
  have settled := tidy.settled _ member
  have single := tidy.single _ member
  cases exempt : found.value.isExempt with
  | true => exact settled.keeps_exempt exempt single avoids
  | false =>
    have orderly := orderly_of_diagnose accepted scanned settled single exempt
      (untorn found scanned)
    exact orderly.keeps avoids

/-- Strict mode keeps what stands between the tags if the passes are confined to the tags and no
name is torn. If flat tags are rewritten to texts that hold no `>` before their ends, it does so
only then. -/
theorem strict_scoping_keeps_gaps (ids : InstanceIds) (options : PreprocessOptions) (source : String)
    (result : PreprocessResult) (strict : options.strict = true)
    (outcome : (preprocess ids options source).outcome = .ok result)
    (closed : ∀ found ∈ scanTags source.toList, found.value.isClosed = true)
    (single : ∀ found ∈ scanTags source.toList,
      Text.holdsTagStart (found.value.text.drop 1) = false)
    (avoids : ids.Avoids ['<', '>', '{', '}']) :
    (Confined ids (Tag.pattern.split source.toList) ∧
        (∀ found ∈ scanTags source.toList, ¬found.value.TearsName) →
      KeepsGaps source.toList result.code.toList) ∧
    (Cleared ids source.toList → KeepsGaps source.toList result.code.toList →
      Confined ids (Tag.pattern.split source.toList) ∧
        ∀ found ∈ scanTags source.toList, ¬found.value.TearsName) := by
  obtain ⟨accepted, rfl⟩ := outcome_strict strict outcome
  have tidy := tidy_of_scan closed single
  have written := tidy.scopedSource_eq ids
  constructor
  · rintro ⟨confined, untorn⟩
    exact keepsGaps_of_confined accepted tidy avoids confined untorn
  · intro cleared keeps
    have clearsElements := cleared.elements
    have clearsComponents := cleared.components
    rw [KeepsGaps, code_eq] at keeps
    rw [written] at keeps clearsElements clearsComponents
    have lone : ∀ tag ∈ (Tag.pattern.split source.toList).values,
        Lone tag.kind (tag.scopedText ids) := fun tag member =>
      (tidy.settled tag member).lone_scopedText (tidy.single tag member)
        (@Tag.angle_not_mem_binding tag ids avoids false).1
    obtain ⟨confined, heads⟩ :=
      tidy.confined_of_written lone clearsElements clearsComponents keeps
    refine ⟨confined, ?_⟩
    intro found scanned torn
    have member := mem_values_of_scanned scanned
    have settled := tidy.settled _ member
    have faultless := Tag.accepted_of_faults (faults_of_diagnose accepted found scanned)
      torn.unexempt settled
    exact settled.untorn_of_prefix faultless (single found scanned) avoids
      (heads found.value member) torn

/-- A spread is resolved in its tag, and nothing else of the source with it. A flat tag that goes
over the end of its tag takes what stands between the tags along. -/
theorem strict_scoping_keeps_gaps_here :
    (Confined ⟨[("Card", "k")], by decide⟩
        (Tag.pattern.split "<p \x7b...cssTarget\x7d>x<Card/>y".toList) ∧
      KeepsGaps "<p \x7b...cssTarget\x7d>x<Card/>y".toList
        (scopeSource ⟨[("Card", "k")], by decide⟩ "<p \x7b...cssTarget\x7d>x<Card/>y").code.toList) ∧
    (Cleared ⟨[], by decide⟩ "<div title=\"\x7b...\">text cssTarget\x7d more >".toList ∧
      ¬KeepsGaps "<div title=\"\x7b...\">text cssTarget\x7d more >".toList
        (scopeSource ⟨[], by decide⟩
          "<div title=\"\x7b...\">text cssTarget\x7d more >").code.toList) := by
  constructor
  · have confined : Confined ⟨[("Card", "k")], by decide⟩
        (Tag.pattern.split "<p \x7b...cssTarget\x7d>x<Card/>y".toList) := by
      decide +kernel
    have braceless : ∀ found ∈ scanTags "<p \x7b...cssTarget\x7d>x<Card/>y".toList,
        '{' ∉ found.value.name := by
      decide +kernel
    exact ⟨confined, (strict_scoping_keeps_gaps _ ⟨true, "f"⟩ _ _ rfl rfl (by decide +kernel)
      (by decide +kernel) (by decide)).1
        ⟨confined, fun found scanned => Tag.untorn_of_absent (braceless found scanned)⟩⟩
  · have cleared : Cleared ⟨[], by decide⟩
        "<div title=\"\x7b...\">text cssTarget\x7d more >".toList := by
      constructor <;> decide +kernel
    have unconfined : ¬Confined ⟨[], by decide⟩
        (Tag.pattern.split "<div title=\"\x7b...\">text cssTarget\x7d more >".toList) := by
      decide +kernel
    refine ⟨cleared, fun keeps => unconfined ?_⟩
    exact ((strict_scoping_keeps_gaps _ ⟨true, "f"⟩ _ _ rfl rfl (by decide +kernel)
      (by decide +kernel) (by decide)).2 cleared keeps).1

/-- A source without diagnostics whose text behind a tag is lost: the value opens a spread, and
`cssTarget` and the `}` stand behind the tag. -/
theorem strict_scoping_loses_gap :
    ∃ result, (preprocess ⟨[], by decide⟩ ⟨true, "f"⟩
        "<div title=\"\x7b...\">text cssTarget\x7d more >").outcome = .ok result ∧
      (∀ found ∈ scanTags "<div title=\"\x7b...\">text cssTarget\x7d more >".toList,
        found.value.isClosed = true ∧ Text.holdsTagStart (found.value.text.drop 1) = false) ∧
      ¬KeepsGaps "<div title=\"\x7b...\">text cssTarget\x7d more >".toList result.code.toList := by
  refine ⟨_, rfl, by decide +kernel, ?_⟩
  intro keeps
  exact absurd keeps.tail_suffix (by decide +kernel)

/-- It is enough to look at the tags of the source: strict mode keeps what stands between them if
each meets a `}` behind every spread that is opened in it, be it within a value, and exempt tags
hold no flat spread. -/
theorem strict_scoping_keeps_gaps_of_closes (ids : InstanceIds) (options : PreprocessOptions)
    (source : String) (result : PreprocessResult) (strict : options.strict = true)
    (outcome : (preprocess ids options source).outcome = .ok result)
    (closed : ∀ found ∈ scanTags source.toList, found.value.isClosed = true)
    (single : ∀ found ∈ scanTags source.toList,
      Text.holdsTagStart (found.value.text.drop 1) = false)
    (avoids : ids.Avoids ['<', '>', '{', '}'])
    (closes : ∀ found ∈ scanTags source.toList, CssSpread.Closes found.value.text)
    (exempt : ∀ found ∈ scanTags source.toList, found.value.isExempt = true →
      CssSpread.pattern.occursIn found.value.text = false) :
    KeepsGaps source.toList result.code.toList := by
  obtain ⟨accepted, rfl⟩ := outcome_strict strict outcome
  have tidy := tidy_of_scan closed single
  obtain ⟨confined, untorn⟩ := confined_of_closes accepted tidy avoids closes fun found scanned kept =>
    Pattern.occursIn_eq_false_iff.mp (exempt found scanned kept)
  exact keepsGaps_of_confined accepted tidy avoids confined untorn

/-- A value that opens a spread and closes it, a spread that is resolved, and one that stands
between the tags and stays there. -/
theorem strict_scoping_keeps_gaps_of_closes_here :
    KeepsGaps "<p title=\"\x7b...a\x7d\" \x7b...cssTarget\x7d>x\x7b...cssTarget\x7d<Card/>".toList
      (scopeSource ⟨[("Card", "k")], by decide⟩
        "<p title=\"\x7b...a\x7d\" \x7b...cssTarget\x7d>x\x7b...cssTarget\x7d<Card/>").code.toList :=
  strict_scoping_keeps_gaps_of_closes ⟨[("Card", "k")], by decide⟩ ⟨true, "f"⟩ _ _ rfl rfl
    (by decide +kernel) (by decide +kernel) (by decide) (by decide +kernel) (by decide +kernel)

end ScopedMarkup
