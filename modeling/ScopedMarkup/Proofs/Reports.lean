import ScopedMarkup.Preprocess
import ScopedMarkup.Proofs.Locations
import ScopedMarkup.Proofs.ShapeFlags

/-!
# Reports on sources

A source is reported on tag by tag, and a tag is checked against one rule after another. So the
rules that a tag breaks are those of a fixed list that hold of it, in the order of the list, and no
rule is reported twice for one tag.

No two tags have one location. Hence what is reported at a location is the report on the tag there,
the report of a source goes from lesser locations to greater ones, and the diagnostic that strict
preprocessing returns, which is the first, has a least location.

The two rules about the shape of a tag that forwards its parent's scope are broken exactly if a `>`
or a line end stands in the text of the tag before its last character.
-/

namespace ScopedMarkup

/-- The rules in the order in which a tag is checked against them. -/
def Rule.reportOrder : List Rule :=
  [reservedAttribute, unknownInstance, strayTarget, nestedTarget, angleInTag, multilineTag]

/-- The line and the column of a diagnostic. -/
def Diagnostic.location (diagnostic : Diagnostic) : SourceLocation :=
  ⟨diagnostic.line, diagnostic.column⟩

namespace Tag

variable (ids : InstanceIds) (file : String) (found : Located Tag)

/-- The diagnostics for one tag. -/
def report : List Diagnostic := (faults ids found).map (Fault.diagnostic file found)

/-- Whether a tag that is not exempt breaks a rule. -/
def breaks : Rule → Bool
  | .reservedAttribute => found.value.bearsAttribute
  | .unknownInstance => found.value.lacksInstance ids
  | .strayTarget => (strayTarget? found).isSome
  | .nestedTarget => found.value.forwardsScope && found.value.nestedTarget?.isSome
  | .angleInTag => found.value.forwardsScope && found.value.anglePlace?.isSome
  | .multilineTag => found.value.forwardsScope && found.value.spansLines

/-- The first three rules are checked for every tag. -/
theorem map_rule_commonFaults : (commonFaults ids found).map Fault.rule =
    [Rule.reservedAttribute, .unknownInstance, .strayTarget].filter (breaks ids found) := by
  rw [commonFaults]
  cases reserved : found.value.bearsAttribute <;> cases unknown : found.value.lacksInstance ids <;>
    cases stray : strayTarget? found <;> simp [breaks, reserved, unknown, stray, Fault.rule]

/-- The others are checked for tags that forward. -/
theorem map_rule_forwardingFaults (forwards : found.value.forwardsScope = true) :
    found.value.forwardingFaults.map Fault.rule =
      [Rule.nestedTarget, .angleInTag, .multilineTag].filter (breaks ids found) := by
  rw [forwardingFaults]
  cases nested : found.value.nestedTarget? <;> cases angle : found.value.anglePlace? <;>
    cases lines : found.value.spansLines <;>
      simp [breaks, forwards, nested, angle, lines, Fault.rule]

/-- The rules that a tag is reported for are those that it breaks, in their order. -/
theorem map_rule_faults : (faults ids found).map Fault.rule =
    if found.value.isExempt then [] else Rule.reportOrder.filter (breaks ids found) := by
  have order : Rule.reportOrder =
      [.reservedAttribute, .unknownInstance, .strayTarget] ++
        [.nestedTarget, .angleInTag, .multilineTag] := rfl
  rw [faults]
  split
  · rfl
  · rw [List.map_append, map_rule_commonFaults, order, List.filter_append]
    by_cases forwards : found.value.forwardsScope = true
    · rw [if_pos forwards, map_rule_forwardingFaults ids found forwards]
    · rw [if_neg forwards]
      simp [breaks, forwards]

/-- The codes reported for a tag are among those of all rules, in their order. -/
theorem map_code_report_sublist :
    ((report ids file found).map Diagnostic.code).Sublist (Rule.reportOrder.map Rule.code) := by
  have codes : (report ids file found).map Diagnostic.code =
      ((faults ids found).map Fault.rule).map Rule.code := by
    rw [report, List.map_map, List.map_map]
    rfl
  rw [codes, map_rule_faults]
  refine List.Sublist.map _ ?_
  split
  · exact List.nil_sublist _
  · exact List.filter_sublist

variable {ids file found}

/-- A tag is reported for a rule if it is not exempt and breaks the rule. -/
theorem exists_code_iff {rule : Rule} :
    (∃ diagnostic ∈ report ids file found, diagnostic.code = rule.code) ↔
      found.value.isExempt = false ∧ breaks ids found rule = true := by
  have listed : rule ∈ Rule.reportOrder := by cases rule <;> decide
  have broken : (∃ diagnostic ∈ report ids file found, diagnostic.code = rule.code) ↔
      rule ∈ (faults ids found).map Fault.rule := by
    rw [report, List.mem_map]
    constructor
    · rintro ⟨diagnostic, reported, same⟩
      obtain ⟨fault, member, rfl⟩ := List.mem_map.mp reported
      exact ⟨fault, member, Rule.code_injective same⟩
    · rintro ⟨fault, member, rfl⟩
      exact ⟨_, List.mem_map_of_mem member, rfl⟩
  rw [broken, map_rule_faults]
  cases found.value.isExempt <;> simp [listed]

/-- What is reported for a tag is about the tag, and stands at its location. -/
theorem of_mem_report {diagnostic : Diagnostic} (reported : diagnostic ∈ report ids file found) :
    diagnostic.location = found.position.location ∧
      diagnostic.context = some (String.ofList found.value.text) := by
  obtain ⟨fault, _, rfl⟩ := List.mem_map.mp reported
  exact ⟨rfl, rfl⟩

end Tag

namespace Text.Numberable

variable {source : List Char} (numberable : Text.Numberable source)
include numberable

/-- No two scanned tags have one location. -/
theorem eq_of_location {first second : Located Tag} (scanned : first ∈ scanTags source)
    (scanned' : second ∈ scanTags source)
    (same : first.position.location = second.position.location) : first = second := by
  by_contra different
  have symmetric : Std.Symm fun one other : Located Tag =>
      one.position.location.rank ≠ other.position.location.rank := ⟨fun _ _ => Ne.symm⟩
  have apart := (numberable.pairwise_rank.imp ne_of_lt).forall scanned scanned' different
  exact apart (congrArg SourceLocation.rank same)

/-- What is reported at the location of a tag is the report on the tag. -/
theorem filter_diagnose (ids : InstanceIds) (file : String) {found : Located Tag}
    (scanned : found ∈ scanTags source) :
    (diagnose ids file source).filter (·.location = found.position.location) =
      Tag.report ids file found := by
  have ordered := numberable.pairwise_rank
  have reported : diagnose ids file source = (scanTags source).flatMap (Tag.report ids file) := rfl
  obtain ⟨front, back, cutAt⟩ := List.append_of_mem scanned
  rw [cutAt, List.pairwise_append, List.pairwise_cons] at ordered
  have elsewhere : ∀ others : List (Located Tag),
      (∀ other ∈ others, other.position.location.rank ≠ found.position.location.rank) →
        (others.flatMap (Tag.report ids file)).filter (·.location = found.position.location) =
          [] := by
    intro others apart
    refine List.filter_eq_nil_iff.mpr fun diagnostic member same => ?_
    obtain ⟨other, inOthers, its⟩ := List.mem_flatMap.mp member
    refine apart other inOthers (congrArg SourceLocation.rank ?_)
    rw [← (Tag.of_mem_report its).1]
    exact of_decide_eq_true same
  have here : (Tag.report ids file found).filter (·.location = found.position.location) =
      Tag.report ids file found :=
    List.filter_eq_self.mpr fun diagnostic its => decide_eq_true (Tag.of_mem_report its).1
  have before := elsewhere front fun other member =>
    ne_of_lt (ordered.2.2 other member found List.mem_cons_self)
  have behind := elsewhere back fun other member => (ne_of_lt (ordered.2.1.1 other member)).symm
  rw [reported, cutAt, List.flatMap_append, List.flatMap_cons, List.filter_append,
    List.filter_append, before, here, behind, List.append_nil, List.nil_append]

/-- The codes reported at a location are among those of all rules, in their order. -/
theorem map_code_sublist (ids : InstanceIds) (file : String) (location : SourceLocation) :
    (((diagnose ids file source).filter (·.location = location)).map Diagnostic.code).Sublist
      (Rule.reportOrder.map Rule.code) := by
  by_cases taken : ∃ found ∈ scanTags source, found.position.location = location
  · obtain ⟨found, scanned, rfl⟩ := taken
    rw [numberable.filter_diagnose ids file scanned]
    exact Tag.map_code_report_sublist ids file found
  · have none : (diagnose ids file source).filter (·.location = location) = [] := by
      refine List.filter_eq_nil_iff.mpr fun diagnostic reported same => taken ?_
      obtain ⟨found, scanned, its⟩ := List.mem_flatMap.mp reported
      exact ⟨found, scanned, (Tag.of_mem_report its).1.symm.trans (of_decide_eq_true same)⟩
    rw [none]
    exact List.nil_sublist _

/-- The locations of what is reported do not decrease. -/
theorem pairwise_diagnose (ids : InstanceIds) (file : String) :
    (diagnose ids file source).Pairwise fun first second =>
      first.location.rank ≤ second.location.rank := by
  refine List.pairwise_flatMap.mpr ⟨?_, ?_⟩
  · intro found _
    refine List.pairwise_of_forall_mem_list ?_
    intro first its second its'
    rw [(Tag.of_mem_report its).1, (Tag.of_mem_report its').1]
  · refine numberable.pairwise_rank.imp ?_
    intro first second less diagnostic its other its'
    rw [(Tag.of_mem_report its).1, (Tag.of_mem_report its').1]
    exact le_of_lt less

end Text.Numberable

/-- What the places in the report of a source say. -/
structure OrderlyReport (ids : InstanceIds) (file : String) (source : List Char) : Prop where
  /-- The locations of the scanned tags increase. -/
  increasing : ((scanTags source).map TagSpan.ofLocated).Pairwise fun first second =>
    first.location.rank < second.location.rank
  /-- Each leads to where its tag begins. -/
  leads : ∀ span ∈ (scanTags source).map TagSpan.ofLocated,
    span.location.offsetIn? source = some span.start
  /-- The locations of the diagnostics do not decrease. -/
  sorted : (diagnose ids file source).Pairwise fun first second =>
    first.location.rank ≤ second.location.rank
  /-- A diagnostic is at the location of one tag, and what is reported there is the report on that
  tag. Its context is the text of the tag, which begins where the location leads. -/
  owned : ∀ diagnostic ∈ diagnose ids file source,
    ∃! found, found ∈ scanTags source ∧
      (TagSpan.ofLocated found).location = diagnostic.location ∧
        (diagnose ids file source).filter (·.location = diagnostic.location) =
          Tag.report ids file found ∧
        ∃ before text behind, source = before ++ (text ++ behind) ∧
          diagnostic.location.offsetIn? source = some (Text.byteLength before) ∧
            Text.byteLength (before ++ text) = (TagSpan.ofLocated found).stop ∧
              diagnostic.context = some (String.ofList text)
  /-- The codes reported at one location differ, and they are in one order. -/
  codes : ∀ location : SourceLocation,
    (((diagnose ids file source).filter (·.location = location)).map Diagnostic.code).Nodup ∧
      (((diagnose ids file source).filter (·.location = location)).map Diagnostic.code).Sublist
        ["SVS001", "SVS005", "SVS006", "SVS002", "SVS003", "SVS004"]
  /-- Strict preprocessing returns a diagnostic with a least location, if there is one. -/
  least : (diagnose ids file source ≠ [] →
      ∃ first, (preprocess ids ⟨true, file⟩ (String.ofList source)).outcome = .error first) ∧
    ∀ first, (preprocess ids ⟨true, file⟩ (String.ofList source)).outcome = .error first →
      first ∈ diagnose ids file source ∧
        ∀ other ∈ diagnose ids file source, first.location.rank ≤ other.location.rank

/-- Whatever is reported of a source, it is reported in the order of the locations, each diagnostic
at the one tag that it is about, and no rule twice for one tag. -/
theorem report_orderly (ids : InstanceIds) (file : String) {source : List Char}
    (numberable : Text.Numberable source) : OrderlyReport ids file source := by
  have sorted := numberable.pairwise_diagnose ids file
  refine ⟨List.pairwise_map.mpr numberable.pairwise_rank, ?_, sorted, ?_, ?_, ?_, ?_⟩
  · intro span member
    obtain ⟨found, scanned, rfl⟩ := List.mem_map.mp member
    exact numberable.offsetIn?_of_scanned scanned
  · intro diagnostic reported
    obtain ⟨found, scanned, its⟩ := List.mem_flatMap.mp reported
    obtain ⟨placed, context⟩ := Tag.of_mem_report its
    obtain ⟨before, behind, joined, _, bytes⟩ := exists_around_of_scanned scanned
    refine ⟨found, ⟨scanned, placed.symm, ?_, before, found.value.text, behind, joined, ?_, ?_,
      context⟩, ?_⟩
    · rw [placed]
      exact numberable.filter_diagnose ids file scanned
    · rw [placed, bytes]
      exact numberable.offsetIn?_of_scanned scanned
    · rw [Text.byteLength_append, bytes]
      rfl
    · rintro other ⟨scanned', placed', _⟩
      exact numberable.eq_of_location scanned' scanned (placed'.trans placed)
  · intro location
    have among := numberable.map_code_sublist ids file location
    exact ⟨among.nodup (by decide), among⟩
  · intro some
    exact outcome_of_mem_diagnose (List.head_mem some)
  · intro first outcome
    have head := outcome_eq_error_iff.mp outcome
    rw [String.toList_ofList] at head
    obtain ⟨others, all⟩ := List.head?_eq_some_iff.mp head
    rw [all] at sorted ⊢
    refine ⟨List.mem_cons_self, fun other member => ?_⟩
    rcases List.mem_cons.mp member with rfl | later
    · exact le_refl _
    · exact (List.pairwise_cons.mp sorted).1 other later

/-- Two tags of one line behind characters of several bytes, and one on a later line. -/
theorem report_orderly_here :
    (diagnose ⟨[], by decide⟩ "f" "é<Foo {...cssTarget} a='>' /><p>\n→ <Bar />".toList).map
        Diagnostic.brief = ["SVS005@1:2", "SVS003@1:2", "SVS005@2:3"] ∧
      OrderlyReport ⟨[], by decide⟩ "f" "é<Foo {...cssTarget} a='>' /><p>\n→ <Bar />".toList := by
  refine ⟨by decide +kernel, report_orderly _ _ ?_⟩
  exact Text.numberable_of_length_lt (by decide +kernel)

/-- A tag of another name than the two is not exempt. -/
theorem TagSpan.isExempt_of_name {found : Located Tag}
    (noScript : (TagSpan.ofLocated found).name ≠ "script")
    (noStyle : (TagSpan.ofLocated found).name ≠ "style") : found.value.isExempt = false := by
  rw [Bool.eq_false_iff, Tag.isExempt, isExemptName, ne_eq, Bool.or_eq_true, beq_iff_eq,
    beq_iff_eq, not_or]
  constructor
  · intro same
    exact noScript ((congrArg String.ofList same).trans String.ofList_toList)
  · intro same
    exact noStyle ((congrArg String.ofList same).trans String.ofList_toList)

/-- A tag forwards if a spread in its record mentions `cssTarget`. -/
theorem TagSpan.mentions_iff_forwardsScope {found : Located Tag} :
    (∃ spread ∈ (TagSpan.ofLocated found).spreads, spread.mentionsCssTarget = true) ↔
      found.value.forwardsScope = true := by
  rw [← List.any_eq_true, Tag.forwardsScope, ← Tag.spreadsFrom_map_snd found.position.offset]
  show (((found.value.spreadsFrom _).map _).any _ = true) ↔ _
  rw [List.any_map, List.any_map]
  rfl

/-- What the shape in the record of a tag tells of the text of the tag. -/
structure TagSpan.TellsShape (span : TagSpan) (text : List Char) : Prop where
  /-- It tells whether a line end stands in the text. -/
  multiline : span.multiline = true ↔ '\n' ∈ text
  /-- If the tag is closed, it tells whether a `>` stands before the last character. -/
  angle : span.closed = true →
    (span.angleInBraces = true ∨ span.angleInQuotes = true ↔ '>' ∈ text.dropLast)

/-- The shape of a scanned tag is told exactly. So a closed tag that gets an attribute is reported
for a `>`, or for a line end, if it has a spread that mentions `cssTarget` and the one, or the
other, before its last character. -/
theorem shape_told_exactly {source : List Char} {found : Located Tag}
    (scanned : found ∈ scanTags source) :
    ∃ before text behind, source = before ++ (text ++ behind) ∧
      Text.byteLength before = (TagSpan.ofLocated found).start ∧
      Text.byteLength (before ++ text) = (TagSpan.ofLocated found).stop ∧
      (TagSpan.ofLocated found).TellsShape text ∧
      ((TagSpan.ofLocated found).closed = true →
        (TagSpan.ofLocated found).name ≠ "script" → (TagSpan.ofLocated found).name ≠ "style" →
          ∀ (ids : InstanceIds) (file : String),
            ((∃ diagnostic ∈ Tag.report ids file found, diagnostic.code = "SVS003") ↔
              (∃ spread ∈ (TagSpan.ofLocated found).spreads, spread.mentionsCssTarget = true) ∧
                '>' ∈ text.dropLast) ∧
            ((∃ diagnostic ∈ Tag.report ids file found, diagnostic.code = "SVS004") ↔
              (∃ spread ∈ (TagSpan.ofLocated found).spreads, spread.mentionsCssTarget = true) ∧
                '\n' ∈ text.dropLast)) := by
  obtain ⟨before, behind, joined, stands, bytes⟩ := exists_around_of_scanned scanned
  have angle : found.value.isClosed = true →
      (found.value.hasAngleInBraces = true ∨ found.value.hasAngleInQuotes = true ↔
        '>' ∈ found.value.text.dropLast) := by
    intro closed
    rw [Tag.text_dropLast_of_closed closed]
    exact stands.hasAngle_iff
  refine ⟨before, found.value.text, behind, joined, bytes, ?_, ⟨stands.spansLines_iff, angle⟩, ?_⟩
  · rw [Text.byteLength_append, bytes]
    rfl
  · intro closed noScript noStyle ids file
    have unexempt := TagSpan.isExempt_of_name noScript noStyle
    have line : '\n' ∈ found.value.text.dropLast ↔ found.value.spansLines = true := by
      rw [stands.spansLines_iff, Tag.text_of_closed closed, List.dropLast_concat]
      exact (List.mem_append.trans (or_iff_left (by decide))).symm
    rw [TagSpan.mentions_iff_forwardsScope, ← angle closed, line]
    constructor
    · refine (@Tag.exists_code_iff ids file found .angleInTag).trans ?_
      rw [Tag.breaks, Bool.and_eq_true, Tag.isSome_anglePlace?]
      exact and_iff_right unexempt
    · refine (@Tag.exists_code_iff ids file found .multilineTag).trans ?_
      rw [Tag.breaks, Bool.and_eq_true]
      exact and_iff_right unexempt

/-- A tag with an arrow function and a line end, behind a character of two bytes. It is reported for
both. -/
theorem shape_told_exactly_here :
    ∃ found ∈ scanTags "é<p \x7b...cssTarget\x7d\nonclick=\x7b() => 1\x7d>".toList,
      (TagSpan.ofLocated found).start = Text.byteLength ['é'] ∧
      (TagSpan.ofLocated found).TellsShape "<p \x7b...cssTarget\x7d\nonclick=\x7b() => 1\x7d>".toList ∧
      (∃ diagnostic ∈ Tag.report .empty "f" found, diagnostic.code = "SVS003") ∧
      ∃ diagnostic ∈ Tag.report .empty "f" found, diagnostic.code = "SVS004" := by
  have present : scanTags "é<p \x7b...cssTarget\x7d\nonclick=\x7b() => 1\x7d>".toList ≠ [] := by
    decide +kernel
  have given : ∀ found ∈ scanTags "é<p \x7b...cssTarget\x7d\nonclick=\x7b() => 1\x7d>".toList,
      (TagSpan.ofLocated found).closed = true ∧ (TagSpan.ofLocated found).name ≠ "script" ∧
        (TagSpan.ofLocated found).name ≠ "style" ∧
        (TagSpan.ofLocated found).start = Text.byteLength ['é'] ∧
        (TagSpan.ofLocated found).stop = Text.byteLength
          "é<p \x7b...cssTarget\x7d\nonclick=\x7b() => 1\x7d>".toList ∧
        ∃ spread ∈ (TagSpan.ofLocated found).spreads, spread.mentionsCssTarget = true := by
    decide +kernel
  have scanned := List.head_mem present
  obtain ⟨closed, noScript, noStyle, placed, ended, mentions⟩ := given _ scanned
  obtain ⟨before, text, behind, joined, starts, stops, shape, reports⟩ := shape_told_exactly scanned
  obtain ⟨angleTold, linesTold⟩ := reports closed noScript noStyle .empty "f"
  -- The offsets tell the tag from the character before it.
  have spelled : "é<p \x7b...cssTarget\x7d\nonclick=\x7b() => 1\x7d>".toList =
      ['é'] ++ "<p \x7b...cssTarget\x7d\nonclick=\x7b() => 1\x7d>".toList := by
    decide +kernel
  have front : before = ['é'] :=
    Text.eq_of_byteLength_eq ⟨_, joined.symm⟩ ⟨_, spelled.symm⟩ (starts.trans placed)
  have whole : before ++ text = "é<p \x7b...cssTarget\x7d\nonclick=\x7b() => 1\x7d>".toList :=
    Text.eq_of_byteLength_eq ⟨behind, by rw [joined, List.append_assoc]⟩ List.prefix_rfl
      (stops.trans ended)
  rw [front, spelled] at whole
  rw [List.append_cancel_left whole] at shape angleTold linesTold
  exact ⟨_, scanned, placed, shape, angleTold.mpr ⟨mentions, by decide⟩,
    linesTold.mpr ⟨mentions, by decide⟩⟩

end ScopedMarkup
