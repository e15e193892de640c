import ScopedMarkup.Proofs.Resolved
import ScopedMarkup.Tag.Span

/-!
# Scoping a scoped source

The attribute that a tag gets is read back as a row of pieces: a blank, the name and `=`, and one
balanced group. None of them is a spread, a quoted value or a line end, and the pieces behind them
are read as before, to the same end. So a scan of the scoped source finds the same tags with the
attributes in front of their bodies, closed and unclosed ones alike, and what their records tell of
their shape is the same.

The one thing that has changed is that each tag that got an attribute bears it, and this is a fault.
Strict mode therefore refuses to scope a source again.
-/

namespace ScopedMarkup

/-- What a record tells of a spread besides its place. -/
def SpreadSpan.shape (span : SpreadSpan) : String × Bool × Bool :=
  (span.expression, span.nestedBraces, span.mentionsCssTarget)

/-- Two records tell the same of the shape of a tag. -/
structure TagSpan.Agrees (first second : TagSpan) : Prop where
  /-- The names. -/
  name : first.name = second.name
  /-- What the tags stand for. -/
  kind : first.kind = second.kind
  /-- Whether the tags are closed. -/
  closed : first.closed = second.closed
  /-- Whether they close themselves. -/
  selfClosing : first.selfClosing = second.selfClosing
  /-- Whether they go over a line end. -/
  multiline : first.multiline = second.multiline
  /-- Whether a group holds a `>`. -/
  angleInBraces : first.angleInBraces = second.angleInBraces
  /-- Whether a quoted value holds a `>`. -/
  angleInQuotes : first.angleInQuotes = second.angleInQuotes
  /-- The spreads, their places aside. -/
  spreads : first.spreads.map SpreadSpan.shape = second.spreads.map SpreadSpan.shape

/-- The shape of a spread is the same wherever it begins. -/
theorem Spread.shape_spanFrom (start : Nat) (spread : Spread) :
    (spread.spanFrom start).shape = (spread.spanFrom 0).shape := rfl

namespace Piece

/-- A piece without a line end goes over none. -/
theorem spansLines_of_absent (piece : Piece) (absent : '\n' ∉ piece.text) :
    piece.spansLines = false := by
  cases piece with
  | plain c =>
    have other : c ≠ '\n' := by
      rintro rfl
      exact absent List.mem_cons_self
    simpa [spansLines] using other
  | quoted quote body closed =>
    have inside : '\n' ∉ body := fun member => absent (by simp [text, member])
    simpa [spansLines] using inside
  | group inner =>
    have inside : '\n' ∉ inner := fun member => absent (by simp [text, member])
    simpa [spansLines] using inside

/-- A piece without a `>` has none in its group. -/
theorem hasAngleInBraces_of_absent (piece : Piece) (absent : '>' ∉ piece.text) :
    piece.hasAngleInBraces = false := by
  cases piece <;> simp_all [text, hasAngleInBraces]

/-- A piece without a `>` has none in its value. -/
theorem hasAngleInQuotes_of_absent (piece : Piece) (absent : '>' ∉ piece.text) :
    piece.hasAngleInQuotes = false := by
  cases piece <;> simp_all [text, hasAngleInQuotes]

end Piece

namespace Tag

variable {tag : Tag} {ids : InstanceIds}

/-- A tag with its attribute, as a scan reads it. -/
def withAttribute (ids : InstanceIds) (tag : Tag) : Tag :=
  { tag with body := tag.attributePieces ids false ++ tag.body }

/-- It is written as scoping writes the tag. -/
theorem text_withAttribute (ids : InstanceIds) (tag : Tag) : (tag.withAttribute ids).text = tag.scopedText ids := by
  show tag.head ++ (tag.attributePieces ids false ++ tag.body).flatMap Piece.text ++
    tag.ending.text = _
  rw [List.flatMap_append, flatMap_text_attributePieces, scopedText, rest]
  simp only [List.append_assoc]

/-- What stands behind its name. -/
theorem rest_withAttribute (ids : InstanceIds) (tag : Tag) :
    (tag.withAttribute ids).rest = (tag.attributePieces ids false).flatMap Piece.text ++ tag.rest := by
  rw [rest, rest, ← List.append_assoc, ← List.flatMap_append]
  rfl

/-- A tag stands with its attribute where it stood. -/
theorem Stands.withAttribute {behind : List Char} (stands : tag.Stands behind)
    (avoids : ids.Avoids ['`', '$', '\\']) : (tag.withAttribute ids).Stands behind := by
  obtain ⟨named, ended, body, ending⟩ := stands_iff.mp stands
  have settled : ∀ piece ∈ tag.attributePieces ids false, piece.Settled :=
    fun piece member => (attributePieces_spec avoids false piece member).1
  have run := Piece.many_append_settled settled (tag.rest ++ behind)
  rw [stands_iff, rest_withAttribute, List.append_assoc, run, body]
  refine ⟨named, ?_, rfl, ending⟩
  intro c member
  rw [flatMap_text_attributePieces, binding] at member
  split at member
  · have blank : ' ' = c := by simpa using member
    rw [← blank]
    decide
  · exact ended c member

/-- An attribute holds neither `>` nor a line end if no instance id does. -/
theorem not_mem_binding (avoids : ids.Avoids ['>', '\n']) :
    '>' ∉ tag.binding ids false ∧ '\n' ∉ tag.binding ids false := by
  constructor
  · intro member
    exact absurd (mem_binding avoids (by simp) member) (by decide)
  · intro member
    exact absurd (mem_binding avoids (by simp) member) (by decide)

/-- The pieces of an attribute have nothing that a record tells of, if no instance id holds `>` or
a line end. -/
theorem attributePieces_shape (avoids : ids.Avoids ['>', '\n']) :
    ∀ piece ∈ tag.attributePieces ids false, piece.spread? = none ∧ piece.spansLines = false ∧
      piece.hasAngleInBraces = false ∧ piece.hasAngleInQuotes = false := by
  intro piece member
  have within : piece.text ⊆ tag.binding ids false := by
    rw [← flatMap_text_attributePieces]
    exact fun c inText => List.mem_flatMap.mpr ⟨piece, member, inText⟩
  obtain ⟨noAngle, noLineEnd⟩ := @not_mem_binding tag ids avoids
  have angle : '>' ∉ piece.text := fun inText => noAngle (within inText)
  have lineEnd : '\n' ∉ piece.text := fun inText => noLineEnd (within inText)
  refine ⟨?_, piece.spansLines_of_absent lineEnd, piece.hasAngleInBraces_of_absent angle,
    piece.hasAngleInQuotes_of_absent angle⟩
  unfold attributePieces at member
  split at member
  · rcases List.mem_append.mp member with inName | here
    · obtain ⟨c, _, rfl⟩ := List.mem_map.mp inName
      rfl
    · rw [List.mem_singleton.mp here]
      rfl
  · exact absurd member List.not_mem_nil

/-- The last piece of an attribute is a group. -/
theorem getLast_attributePieces (ids : InstanceIds) (tag : Tag) :
    (tag.attributePieces ids false).getLast? ≠ some (.plain '/') := by
  unfold attributePieces
  split
  · rw [List.getLast?_append]
    simp
  · simp

/-- The spreads of a tag with its attribute are those of the tag. -/
theorem spreads_withAttribute (avoids : ids.Avoids ['>', '\n']) :
    (tag.withAttribute ids).spreads = tag.spreads := by
  have none : (tag.attributePieces ids false).filterMap Piece.spread? = [] := by
    rw [List.filterMap_eq_nil_iff]
    exact fun piece member => (attributePieces_shape avoids piece member).1
  show (tag.attributePieces ids false ++ tag.body).filterMap Piece.spread? = _
  rw [List.filterMap_append, none]
  rfl

/-- A test that no piece of the attribute passes has the same answer for the tag with it. -/
theorem any_withAttribute {test : Piece → Bool}
    (fails : ∀ piece ∈ tag.attributePieces ids false, test piece = false) :
    (tag.withAttribute ids).body.any test = tag.body.any test := by
  have none : (tag.attributePieces ids false).any test = false := by
    rw [List.any_eq_false]
    intro piece member
    simp [fails piece member]
  show (tag.attributePieces ids false ++ tag.body).any test = _
  rw [List.any_append, none, Bool.false_or]

/-- The attribute does not stand at the end of a tag. -/
theorem isSelfClosing_withAttribute (ids : InstanceIds) (tag : Tag) :
    (tag.withAttribute ids).isSelfClosing = tag.isSelfClosing := by
  have last := getLast_attributePieces ids tag
  have same : ((tag.attributePieces ids false ++ tag.body).getLast? == some (.plain '/')) =
      (tag.body.getLast? == some (.plain '/')) := by
    rw [List.getLast?_append]
    cases tag.body.getLast? with
    | none => simpa using last
    | some piece => rfl
  show (tag.isClosed && ((tag.attributePieces ids false ++ tag.body).getLast? == _)) = _
  rw [same]
  rfl

/-- What the record of a tag tells of its spreads. -/
theorem map_shape_spreads (found : Located Tag) :
    (TagSpan.ofLocated found).spreads.map SpreadSpan.shape =
      found.value.spreads.map fun spread => (spread.spanFrom 0).shape := by
  rw [← found.value.spreadsFrom_map_snd found.position.offset, List.map_map]
  show ((found.value.spreadsFrom found.position.offset).map _).map _ = _
  rw [List.map_map]
  exact List.map_congr_left fun entry _ => entry.2.shape_spanFrom entry.1

/-- The record of a tag tells the same of its shape once the tag has its attribute. -/
theorem agrees_withAttribute (avoids : ids.Avoids ['>', '\n']) (first second : Position) :
    (TagSpan.ofLocated ⟨first, tag⟩).Agrees (TagSpan.ofLocated ⟨second, tag.withAttribute ids⟩) where
  name := rfl
  kind := rfl
  closed := rfl
  selfClosing := (isSelfClosing_withAttribute ids tag).symm
  multiline := congrArg (· || _) (any_withAttribute fun piece member =>
    (attributePieces_shape avoids piece member).2.1).symm
  angleInBraces := (any_withAttribute fun piece member =>
    (attributePieces_shape avoids piece member).2.2.1).symm
  angleInQuotes := (any_withAttribute fun piece member =>
    (attributePieces_shape avoids piece member).2.2.2).symm
  spreads := by
    rw [map_shape_spreads, map_shape_spreads]
    show tag.spreads.map _ = (tag.withAttribute ids).spreads.map _
    rw [spreads_withAttribute avoids]

/-- A tag that scoping changes bears its attribute, and this is a fault. -/
theorem reservedAttribute_mem_faults (changed : tag.scopedText ids ≠ tag.text) (other : InstanceIds)
    (position : Position) :
    Fault.reservedAttribute ∈ faults other ⟨position, tag.withAttribute ids⟩ := by
  have gets : tag.isScoped = true := by
    by_contra bare
    refine changed ?_
    rw [scopedText, binding, if_neg bare, List.append_nil, text_eq_head_append]
  have unexempt : (tag.withAttribute ids).isExempt = false := by
    rw [isScoped, Bool.and_eq_true, Bool.not_eq_true'] at gets
    exact gets.2
  have bears : (tag.withAttribute ids).bearsAttribute = true := by
    rw [bearsAttribute, text_withAttribute, Text.contains_iff, scopedText, binding, if_pos gets,
      scopeAttribute, TagKind.attributeOpening]
    refine ⟨tag.head ++ [' '], '{' :: '`' :: (tag.ownEntries ids ++ tag.rest), ?_⟩
    show _ ++ (tag.kind.attributeName ++ "=").toList ++ _ = _
    simp [String.toList_append]
  rw [faults, if_neg (by simp [unexempt]), commonFaults, bears]
  simp

end Tag

/-- Hits that are changed one by one are located in pairs. -/
theorem Pattern.forall₂_locateHits {α : Type} (pattern : Pattern α) (change : α → α)
    (hits : List (List Char × α)) (first second : Position) :
    List.Forall₂ (fun again found : Located α => again.value = change found.value)
      (pattern.locateHits second (hits.map (Prod.map id change))) (pattern.locateHits first hits) := by
  induction hits generalizing first second with
  | nil => exact .nil
  | cons next others inductionHypothesis => exact .cons rfl (inductionHypothesis _ _)

/-- A scan of the scoped source finds the tags with their attributes between the same gaps. -/
theorem split_scopedSource {source : List Char} {ids : InstanceIds}
    (single : ∀ found ∈ scanTags source, Text.holdsTagStart (found.value.text.drop 1) = false)
    (avoids : ids.Avoids ['`', '$', '\\']) :
    Tag.pattern.split (scopedSource ids source) =
      ⟨(Tag.pattern.split source).hits.map (Prod.map id (Tag.withAttribute ids)),
        (Tag.pattern.split source).tail⟩ := by
  have scanned := scanned_split source
  rw [scopedSource_eq single ids]
  refine Tag.pattern.split_render _ _ (Tag.withAttribute ids)
    (Tag.pattern_startsTags.silent scanned.tail rfl) (fun tag _ => tag.text_withAttribute ids)
    (scanned.silent_gap Tag.pattern_startsTags fun _ _ => ⟨_, rfl⟩) ?_
  intro front gap tag back cutAt
  have stands := (scanned.stands cutAt (Tag.scopedText ids)).withAttribute avoids
  rw [← Tag.text_withAttribute]
  exact stands

/-- The scanned tags of the scoped source are those of the source with their attributes. -/
theorem scanTags_scopedSource {source : List Char} {ids : InstanceIds}
    (single : ∀ found ∈ scanTags source, Text.holdsTagStart (found.value.text.drop 1) = false)
    (avoids : ids.Avoids ['`', '$', '\\']) :
    List.Forall₂ (fun again found : Located Tag => again.value = found.value.withAttribute ids)
      (scanTags (scopedSource ids source)) (scanTags source) := by
  show List.Forall₂ _ (Tag.pattern.locateHits Position.start
    (Tag.pattern.split (scopedSource ids source)).hits) _
  rw [split_scopedSource single avoids]
  exact Tag.pattern.forall₂_locateHits _ _ Position.start Position.start

/-- A source that scoping changes has a tag that scoping changes. -/
theorem exists_changed {source : List Char} {ids : InstanceIds}
    (single : ∀ found ∈ scanTags source, Text.holdsTagStart (found.value.text.drop 1) = false)
    (changed : scopedSource ids source ≠ source) :
    ∃ found ∈ scanTags source, found.value.scopedText ids ≠ found.value.text := by
  by_contra unchanged
  apply changed
  apply scopedSource_of_kept single
  intro found scanned
  by_contra other
  exact unchanged ⟨found, scanned, other⟩

/-- Scoping changes nothing that a scan tells of the shape of tags, and it is detected: the scoped
source has as many tags as the source, their records agree, each tag that got an attribute is
reported for it, and strict mode refuses the scoped source if there is one. An instance id may hold
anything but what would end the attribute or change what is told of the tag. -/
theorem scoped_source_rescanned {source : List Char} {ids : InstanceIds}
    (single : ∀ found ∈ scanTags source, Text.holdsTagStart (found.value.text.drop 1) = false)
    (avoids : ids.Avoids ['`', '$', '\\', '>', '\n']) (other : InstanceIds) (file : String) :
    List.Forall₂
        (fun found again : Located Tag =>
          (TagSpan.ofLocated found).Agrees (TagSpan.ofLocated again) ∧
            (again.value.text ≠ found.value.text →
              Fault.reservedAttribute.diagnostic file again ∈
                diagnose other file (scopedSource ids source)))
        (scanTags source) (scanTags (scopedSource ids source)) ∧
      (scopedSource ids source ≠ source →
        ∃ first, (preprocess other ⟨true, file⟩ (String.ofList (scopedSource ids source))).outcome =
          .error first) := by
  have reported : ∀ again ∈ scanTags (scopedSource ids source), ∀ tag : Tag,
      again.value = tag.withAttribute ids → tag.scopedText ids ≠ tag.text →
        Fault.reservedAttribute.diagnostic file again ∈
          diagnose other file (scopedSource ids source) := by
    rintro ⟨position, _⟩ scanned tag rfl changed
    refine List.mem_flatMap.mpr ⟨_, scanned, List.mem_map_of_mem ?_⟩
    exact Tag.reservedAttribute_mem_faults changed other position
  constructor
  · have pairs := scanTags_scopedSource single (avoids.of_subset (by decide))
    refine (((List.forall₂_and_left _ _).mpr ⟨fun _ scanned => scanned, pairs⟩).imp ?_).flip
    rintro ⟨second, again⟩ ⟨first, tag⟩ ⟨scanned, same⟩
    obtain rfl : again = tag.withAttribute ids := same
    refine ⟨tag.agrees_withAttribute (avoids.of_subset (by decide)) first second, fun changed => ?_⟩
    refine reported _ scanned tag rfl ?_
    rw [← Tag.text_withAttribute]
    exact changed
  · intro changed
    obtain ⟨found, scanned, changedTag⟩ := exists_changed single changed
    have member : found.value.withAttribute ids ∈
        (Tag.pattern.split (scopedSource ids source)).values := by
      rw [split_scopedSource single (avoids.of_subset (by decide)), Split.values, List.map_map]
      obtain ⟨hit, inHits, same⟩ := List.mem_map.mp (mem_values_of_scanned scanned)
      exact List.mem_map.mpr ⟨hit, inHits, congrArg (Tag.withAttribute ids) same⟩
    obtain ⟨again, scannedAgain, same⟩ := exists_scanned member
    exact outcome_of_mem_diagnose (reported again scannedAgain found.value same changedTag)

/-- A component whose id holds braces and angles, and an unclosed tag behind it. The tags agree with
those of the source, the component is reported for the attribute it got, and with the same ids the
scoped source is refused for an attribute. -/
theorem scoped_source_rescanned_here :
    (∃ found ∈ scanTags "<Card />x<p title='a".toList,
      ∃ again ∈ scanTags (scopedSource ⟨[("Card", "\x7d<k")], by decide⟩ "<Card />x<p title='a".toList),
        (TagSpan.ofLocated found).Agrees (TagSpan.ofLocated again) ∧
          again.value.text ≠ found.value.text ∧
            Fault.reservedAttribute.diagnostic "f" again ∈ diagnose ⟨[("Card", "\x7d<k")], by decide⟩ "f"
              (scopedSource ⟨[("Card", "\x7d<k")], by decide⟩ "<Card />x<p title='a".toList)) ∧
      ∃ first, (preprocess ⟨[("Card", "\x7d<k")], by decide⟩ ⟨true, "f"⟩ (String.ofList
        (scopedSource ⟨[("Card", "\x7d<k")], by decide⟩ "<Card />x<p title='a".toList))).outcome =
          .error first ∧ first.code = "SVS001" := by
  obtain ⟨pairs, refused⟩ := @scoped_source_rescanned "<Card />x<p title='a".toList
    ⟨[("Card", "\x7d<k")], by decide⟩ (by decide +kernel) (by decide +kernel)
    ⟨[("Card", "\x7d<k")], by decide⟩ "f"
  constructor
  · obtain ⟨agrees, reported⟩ := pairs.get (i := 0) (by decide +kernel) (by decide +kernel)
    refine ⟨_, List.get_mem .., _, List.get_mem .., agrees, ?_, reported ?_⟩ <;> decide +kernel
  · obtain ⟨first, outcome⟩ := refused (by decide +kernel)
    have codes : ∀ diagnostic ∈ diagnose ⟨[("Card", "\x7d<k")], by decide⟩ "f"
        (scopedSource ⟨[("Card", "\x7d<k")], by decide⟩ "<Card />x<p title='a".toList),
          diagnostic.code = "SVS001" := by
      decide +kernel
    have head := outcome_eq_error_iff.mp outcome
    rw [String.toList_ofList] at head
    exact ⟨first, outcome, codes first (List.mem_of_head? head)⟩

end ScopedMarkup
