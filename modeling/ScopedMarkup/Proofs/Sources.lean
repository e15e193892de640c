import ScopedMarkup.Preprocess
import ScopedMarkup.Proofs.Settled
import ScopedMarkup.Proofs.SinglePass

/-!
# Sources as gaps and tags

Every source is cut into gaps in which no tag starts and into tags, each of which stands before
what follows it. A source is tidy if its tags are also closed and no tag starts within another
one: its tags are then settled and start one tag each. A pass over a source keeps the gaps, and
edits each tag on its own as long as no hit goes over the end of a tag.

Scoping is such a pass over every source, tidy or not, for no name goes over the end of a tag. Of a
tag that starts no other one it changes only the place behind the name, where the attribute goes if
the name ends as openings do and the tag is not exempt.
-/

namespace ScopedMarkup

/-- A text that starts a tag of one kind starts none of another kind. -/
theorem TagKind.starts_other {kind other : TagKind} {text : List Char}
    (starts : kind.starts text = true) (different : other ≠ kind) : other.starts text = false := by
  obtain ⟨c, rest, rfl, initial⟩ := TagKind.starts_iff.mp starts
  have apart := TagKind.not_isInitial_both c
  rw [Bool.eq_false_iff]
  intro both
  cases kind <;> cases other <;> simp_all [TagKind.starts]

/-- A text that starts one tag of a kind, at its head, and ends with `>`. -/
structure Lone (kind : TagKind) (text : List Char) : Prop where
  /-- A tag of the kind starts at the head. -/
  starts : kind.starts text = true
  /-- No other tag starts in the text. -/
  free : Text.holdsTagStart (text.drop 1) = false
  /-- The text ends with `>`. -/
  ends : text.getLast? = some '>'

namespace Lone

variable {kind : TagKind} {text : List Char}

/-- Behind the head of a lone text no tag starts, whatever stands behind it. -/
theorem startsTag_tail (lone : Lone kind text) (behind : List Char) {inside : List Char}
    (final : inside <:+ text.drop 1) (present : inside ≠ []) :
    Text.startsTag (inside ++ behind) = false := by
  rw [Bool.eq_false_iff]
  intro start
  have free := Text.holdsTagStart_of_suffix final lone.free
  have last : inside.getLast? = some '>' := by
    obtain ⟨c, rest, rfl, _⟩ := TagKind.starts_iff.mp lone.starts
    rw [← Text.getLast?_of_suffix (final.trans (List.suffix_cons '<' (c :: rest))) present]
    exact lone.ends
  cases inside with
  | nil => exact absurd rfl present
  | cons c rest =>
    cases rest with
    | nil =>
      have closing : c = '>' := by simpa using last
      subst closing
      simp [Text.startsTag] at start
    | cons next others =>
      have here : Text.startsTag (c :: next :: others) = true := by
        rw [← start]
        by_cases opened : c = '<'
        · subst opened
          rfl
        · simp [Text.startsTag, opened]
      rw [Text.holdsTagStart, here] at free
      simp at free

end Lone

/-- A cut into gaps without starts and settled tags that start one tag each. -/
structure Tidy (cut : Split Tag) : Prop where
  /-- No tag starts in a gap. -/
  gaps : ∀ hit ∈ cut.hits, Text.holdsTagStart hit.1 = false
  /-- No tag starts behind the last tag. -/
  tail : Text.holdsTagStart cut.tail = false
  /-- The tags are settled. -/
  settled : ∀ tag ∈ cut.values, tag.Settled
  /-- Within a tag starts no other. -/
  single : ∀ tag ∈ cut.values, Text.holdsTagStart (tag.text.drop 1) = false

/-- A text in whose gaps no tag is read starts no tag there. -/
theorem free_of_silent {gap behind : List Char} (silent : Tag.pattern.Silent gap behind) :
    Text.holdsTagStart gap = false := by
  rw [Bool.eq_false_iff]
  intro held
  obtain ⟨inside, final, start⟩ := Text.holdsTagStart_iff.mp held
  have longer : Text.startsTag (inside ++ behind) = true := by
    obtain ⟨kind, starts⟩ := Text.startsTag_iff.mp start
    obtain ⟨c, rest, rfl, initial⟩ := TagKind.starts_iff.mp starts
    exact Text.startsTag_iff.mpr ⟨kind, initial⟩
  have present : inside ≠ [] := by
    rintro rfl
    simp [Text.startsTag] at start
  have read := Tag.read_isSome longer
  have unread : Tag.read? (inside ++ behind) = none := silent inside final present
  simp [unread] at read

/-- The tags of the cut are the scanned ones. -/
theorem exists_scanned {source : List Char} {tag : Tag}
    (member : tag ∈ (Tag.pattern.split source).values) :
    ∃ found ∈ scanTags source, found.value = tag := by
  rw [← Tag.pattern.locate_map_value Position.start source] at member
  exact List.mem_map.mp member

/-- A cut into gaps without starts and standing tags of which only the last can be unclosed. -/
structure Scanned (cut : Split Tag) : Prop where
  /-- No tag starts in a gap. -/
  gaps : ∀ hit ∈ cut.hits, Text.holdsTagStart hit.1 = false
  /-- No tag starts behind the last tag. -/
  tail : Text.holdsTagStart cut.tail = false
  /-- The tags stand by themselves. -/
  standing : ∀ tag ∈ cut.values, tag.Stands []
  /-- Nothing stands behind an unclosed tag. -/
  last : ∀ front gap tag back, cut.hits = front ++ (gap, tag) :: back → tag.isClosed = false →
    back = [] ∧ cut.tail = []

/-- The cut of every source is such a cut. -/
theorem scanned_split (source : List Char) : Scanned (Tag.pattern.split source) := by
  have right := Tag.pattern.split_isRight source
  refine ⟨?_, free_of_silent right.tail, ?_, ?_⟩
  · intro hit member
    obtain ⟨front, back, cutAt⟩ := List.append_of_mem member
    exact free_of_silent (right.gap front hit.1 hit.2 back cutAt)
  · intro tag member
    obtain ⟨hit, inHits, rfl⟩ := List.mem_map.mp member
    obtain ⟨front, back, cutAt⟩ := List.append_of_mem inHits
    have stands : hit.2.Stands _ := right.hit front hit.1 hit.2 back cutAt
    exact stands.alone
  · intro front gap tag back cutAt unclosed
    have stands : tag.Stands _ := right.hit front gap tag back cutAt
    have nothing := stands.behind_eq_nil unclosed
    cases back with
    | nil => exact ⟨rfl, by simpa [Split.render] using nothing⟩
    | cons next others =>
      obtain ⟨gap', other⟩ := next
      simp [Split.render_cons, Tag.pattern, Tag.text, Tag.head] at nothing

/-- The scanned tags are those of the cut. -/
theorem mem_values_of_scanned {source : List Char} {found : Located Tag}
    (scanned : found ∈ scanTags source) : found.value ∈ (Tag.pattern.split source).values := by
  rw [← Tag.pattern.locate_map_value Position.start]
  exact List.mem_map_of_mem scanned

/-- The scanned tags stand by themselves. -/
theorem stands_of_scanned {source : List Char} {found : Located Tag}
    (scanned : found ∈ scanTags source) : found.value.Stands [] :=
  (scanned_split source).standing _ (mem_values_of_scanned scanned)

/-- The cut of a source is tidy if every scanned tag is closed and none starts in another. -/
theorem tidy_of_scan {source : List Char}
    (closed : ∀ found ∈ scanTags source, found.value.isClosed = true)
    (single : ∀ found ∈ scanTags source, Text.holdsTagStart (found.value.text.drop 1) = false) :
    Tidy (Tag.pattern.split source) := by
  have scanned := scanned_split source
  refine ⟨scanned.gaps, scanned.tail, ?_, ?_⟩
  · intro tag member
    obtain ⟨found, scannedTag, rfl⟩ := exists_scanned member
    exact (scanned.standing _ member).settled (closed found scannedTag)
  · intro tag member
    obtain ⟨found, scannedTag, rfl⟩ := exists_scanned member
    exact single found scannedTag

/-- A tidy cut is one of closed tags. -/
theorem Tidy.scanned {cut : Split Tag} (tidy : Tidy cut) : Scanned cut where
  gaps := tidy.gaps
  tail := tidy.tail
  standing tag member := (tidy.settled tag member).stands []
  last front gap tag back cutAt unclosed := by
    have settled := tidy.settled tag (Split.mem_values_of_hits cutAt)
    simp [Tag.isClosed, settled.closed] at unclosed

namespace Scanned

variable {cut : Split Tag}

/-- A tag of the cut, and what stands behind it however the tags behind it are written. -/
theorem stands (scanned : Scanned cut) {front back : List (List Char × Tag)} {gap : List Char}
    {tag : Tag} (cutAt : cut.hits = front ++ (gap, tag) :: back) (write : Tag → List Char) :
    tag.Stands ((⟨back, cut.tail⟩ : Split Tag).render write) := by
  have alone := scanned.standing tag (Split.mem_values_of_hits cutAt)
  cases closed : tag.isClosed with
  | true => exact (alone.settled closed).stands _
  | false =>
    obtain ⟨rfl, nothing⟩ := scanned.last front gap tag back cutAt closed
    rw [nothing]
    exact alone

/-- Nothing is read in the gaps by a pattern that starts tags, however the tags are written. -/
theorem silent_gap (scanned : Scanned cut) {α : Type} {pattern : Pattern α}
    (startsTags : pattern.StartsTags) {write : Tag → List Char}
    (opened : ∀ tag ∈ cut.values, ∃ rest, write tag = '<' :: rest) :
    ∀ front gap tag back, cut.hits = front ++ (gap, tag) :: back →
      pattern.Silent gap (write tag ++ (⟨back, cut.tail⟩ : Split Tag).render write) := by
  intro front gap tag back cutAt
  have member : (gap, tag) ∈ cut.hits := by
    rw [cutAt]
    exact List.mem_append_right front List.mem_cons_self
  obtain ⟨rest, spelled⟩ := opened tag (List.mem_map.mpr ⟨(gap, tag), member, rfl⟩)
  refine startsTags.silent (scanned.gaps (gap, tag) member) ?_
  rw [spelled]
  rfl

/-- A pass that starts tags edits a scanned source tag by tag when each written tag is parted
from the text behind it. -/
theorem edit (scanned : Scanned cut) {α : Type} (pattern : Pattern α)
    (startsTags : pattern.StartsTags) (replace : α → Option (List Char)) (write : Tag → List Char)
    (opened : ∀ tag ∈ cut.values, ∃ rest, write tag = '<' :: rest)
    (parts : ∀ front gap tag back, cut.hits = front ++ (gap, tag) :: back →
      pattern.Parts (write tag) ((⟨back, cut.tail⟩ : Split Tag).render write)) :
    pattern.edit replace (cut.render write) =
      ⟨cut.render fun tag => (pattern.edit replace (write tag)).text,
        (cut.values.map fun tag => (pattern.edit replace (write tag)).places).sum⟩ :=
  pattern.edit_render replace cut write (startsTags.silent scanned.tail rfl)
    (scanned.silent_gap startsTags opened) parts

end Scanned

namespace Tidy

variable {cut : Split Tag}

theorem mem_values (_ : Tidy cut) {front back : List (List Char × Tag)} {gap : List Char} {tag : Tag}
    (cutAt : cut.hits = front ++ (gap, tag) :: back) : tag ∈ cut.values :=
  Split.mem_values_of_hits cutAt

/-- A pass that starts tags edits a tidy source tag by tag when each written tag is parted
from the text behind it. -/
theorem edit (tidy : Tidy cut) {α : Type} (pattern : Pattern α) (startsTags : pattern.StartsTags)
    (replace : α → Option (List Char)) (write : Tag → List Char)
    (opened : ∀ tag ∈ cut.values, ∃ rest, write tag = '<' :: rest)
    (parts : ∀ front gap tag back, cut.hits = front ++ (gap, tag) :: back →
      pattern.Parts (write tag) ((⟨back, cut.tail⟩ : Split Tag).render write)) :
    pattern.edit replace (cut.render write) =
      ⟨cut.render fun tag => (pattern.edit replace (write tag)).text,
        (cut.values.map fun tag => (pattern.edit replace (write tag)).places).sum⟩ :=
  tidy.scanned.edit pattern startsTags replace write opened parts

end Tidy

namespace Tag

/-- Whether the name of a tag ends as openings do. -/
def isOpening (tag : Tag) : Bool := Opening.endsBefore tag.rest

/-- The ids that a tag lists in its attribute by itself, and the end of the attribute. -/
def ownEntries (ids : InstanceIds) (tag : Tag) : List Char :=
  match tag.kind with
  | .element => (interpolation runtimeIdVariable ++ attributeClosing).toList
  | .component =>
    ((ids.get? (String.ofList tag.name)).getD "" ++ " " ++ interpolation runtimeIdVariable ++
      attributeClosing).toList

/-- The scope attribute of a tag, with the parent's ids at its head if it forwards them. -/
def scopeAttribute (ids : InstanceIds) (forwarding : Bool) (tag : Tag) : List Char :=
  tag.kind.attributeOpening.toList ++
    ((if forwarding then inheritedIdsEntry.toList else []) ++ tag.ownEntries ids)

/-- Whether a tag gets an attribute. -/
def isScoped (tag : Tag) : Bool := tag.isOpening && !tag.isExempt

/-- What scoping puts behind the name of a tag: a blank and the attribute, or nothing. -/
def binding (ids : InstanceIds) (forwarding : Bool) (tag : Tag) : List Char :=
  if tag.isScoped then ' ' :: tag.scopeAttribute ids forwarding else []

/-- The tag as scoping writes it. -/
def scopedText (ids : InstanceIds) (tag : Tag) : List Char :=
  tag.head ++ tag.binding ids false ++ tag.rest

/-- Native elements have one attribute for all. -/
theorem scopeAttribute_element {tag : Tag} (element : tag.kind = .element) (ids : InstanceIds) :
    tag.scopeAttribute ids false = elementAttribute.toList := by
  simp [scopeAttribute, ownEntries, element, elementAttribute, String.toList_append]

/-- Components have the attribute of the instance id that goes with their name. -/
theorem scopeAttribute_component {tag : Tag} (component : tag.kind = .component)
    (ids : InstanceIds) : tag.scopeAttribute ids false =
      (componentAttribute ((ids.get? (String.ofList tag.name)).getD "")).toList := by
  simp [scopeAttribute, ownEntries, component, componentAttribute, String.toList_append]

/-- What stands behind the name of a settled tag is not empty, and its head is no name
character. -/
theorem Settled.rest_eq_cons {tag : Tag} (settled : tag.Settled) :
    ∃ next others, tag.rest = next :: others ∧ isNameChar next = false := by
  rw [rest, settled.closed]
  cases pieces : tag.body with
  | nil => exact ⟨'>', [], rfl, by decide⟩
  | cons piece more =>
    obtain ⟨c, rfl, ended⟩ := settled.nameEnds piece more pieces
    exact ⟨c, _, rfl, ended⟩

/-- A settled tag starts its own text. -/
theorem Settled.starts {tag : Tag} (settled : tag.Settled) (behind : List Char) :
    tag.kind.starts (tag.head ++ behind) = true :=
  IsNamed.starts settled.named behind

/-- A settled tag that starts no other is a lone text. -/
theorem Settled.lone {tag : Tag} (settled : tag.Settled)
    (single : Text.holdsTagStart (tag.text.drop 1) = false) : Lone tag.kind tag.text where
  starts := by
    rw [text_eq_head_append]
    exact settled.starts tag.rest
  free := single
  ends := by
    rw [settled.text_eq, ← List.append_assoc, List.getLast?_append]
    rfl

/-- An opening is read at the head of a standing tag of its kind, if the name ends so. -/
theorem Stands.read_opening {tag : Tag} (stands : tag.Stands []) :
    Opening.read? tag.kind tag.text = if tag.isOpening then some ⟨tag.name⟩ else none := by
  obtain ⟨first, others, named, initial, inner⟩ := stands.named
  obtain ⟨noneTaken, allLeft⟩ := Text.takeWhile_of_head stands.ended
  have spelled : tag.text = '<' :: first :: (others ++ tag.rest) := by
    rw [text_eq_head_append, head, named]
    rfl
  rw [spelled, Opening.read?, initial, List.takeWhile_append_of_pos inner,
    List.dropWhile_append_of_pos inner, noneTaken, allLeft, List.append_nil, isOpening, named]
  rfl

/-- A standing tag that starts no other is cut at its own opening, if its name ends so. -/
theorem Stands.split_own {tag : Tag} (stands : tag.Stands [])
    (single : Text.holdsTagStart (tag.text.drop 1) = false) :
    (Opening.pattern tag.kind).split tag.text =
      if tag.isOpening then ⟨[([], ⟨tag.name⟩)], tag.rest⟩ else ⟨[], tag.text⟩ := by
  have silentTail : (Opening.pattern tag.kind).Silent (tag.text.drop 1) [] :=
    (Opening.pattern_startsTags tag.kind).silent single rfl
  have read := stands.read_opening
  by_cases opens : tag.isOpening = true
  · rw [if_pos opens, text_eq_head_append] at read
    have silent : (Opening.pattern tag.kind).Silent tag.rest [] := by
      refine silentTail.of_suffix ?_
      rw [text_eq_head_append]
      exact List.suffix_append tag.name tag.rest
    have cut := (Opening.pattern tag.kind).split_append ⟨tag.name⟩ tag.rest read
    rw [if_pos opens, text_eq_head_append]
    refine cut.trans ?_
    rw [Pattern.split_of_silent _ silent, Split.precede]
  · have silent : (Opening.pattern tag.kind).Silent tag.text [] := by
      intro inside final present
      rw [List.append_nil]
      rcases List.suffix_cons_iff.mp (show inside <:+ '<' :: tag.text.drop 1 from final) with
        same | within
      · rw [if_neg opens] at read
        rw [same]
        exact read
      · have unread := silentTail inside within present
        rwa [List.append_nil] at unread
    rw [Pattern.split_of_silent _ silent, if_neg opens]

/-- The tags of the kind of a pass get what it adds, behind their names. -/
theorem Stands.edit_own {tag : Tag} (stands : tag.Stands [])
    (single : Text.holdsTagStart (tag.text.drop 1) = false)
    (add? : List Char → Option (List Char)) :
    ((Opening.pattern tag.kind).edit (Word.adding add?) tag.text).text =
      tag.head ++ (if tag.isOpening then (add? tag.name).getD [] else []) ++ tag.rest := by
  rw [Pattern.edit, stands.split_own single]
  by_cases opens : tag.isOpening = true
  · cases added : add? tag.name <;>
      simp [Split.render, Word.adding, added, opens, Opening.pattern, Opening.text, head]
  · simp [Split.render, opens, text_eq_head_append]

end Tag

/-- No opening of a kind is read in a text that starts one tag, of another kind. -/
theorem Opening.silent_other {kind other : TagKind} {text : List Char}
    (starts : kind.starts text = true) (free : Text.holdsTagStart (text.drop 1) = false)
    (different : other ≠ kind) : (pattern other).Silent text [] := by
  intro inside final present
  obtain ⟨c, rest, rfl, _⟩ := TagKind.starts_iff.mp starts
  rcases List.suffix_cons_iff.mp final with rfl | within
  · show read? other ('<' :: c :: rest ++ []) = none
    rw [List.append_nil]
    cases read : read? other ('<' :: c :: rest) with
    | none => rfl
    | some opening =>
      have start := starts_of_read read
      rw [TagKind.starts_other starts different] at start
      exact absurd start Bool.false_ne_true
  · exact (pattern_startsTags other).silent free rfl inside within present

/-- A pass that adds behind openings of another kind leaves it as it is. -/
theorem Opening.edit_other {kind other : TagKind} {text : List Char}
    (starts : kind.starts text = true) (free : Text.holdsTagStart (text.drop 1) = false)
    (different : other ≠ kind) (replace : Opening → Option (List Char)) :
    (pattern other).edit replace text = ⟨text, 0⟩ :=
  (pattern other).edit_of_silent replace text (silent_other starts free different)

namespace Tag

/-- A standing tag that scoping has written starts no other tag behind its head either, as long
as its attribute holds no `<`. -/
theorem Stands.free_scopedText {tag : Tag} (stands : tag.Stands [])
    (single : Text.holdsTagStart (tag.text.drop 1) = false) {ids : InstanceIds}
    (absent : '<' ∉ tag.binding ids false) :
    Text.holdsTagStart ((tag.scopedText ids).drop 1) = false := by
  have split : tag.text.drop 1 = tag.name ++ tag.rest := by
    rw [text_eq_head_append]
    rfl
  rw [split] at single
  have nameFree := Text.holdsTagStart_of_append single
  have restFree := Text.holdsTagStart_of_suffix (List.suffix_append tag.name tag.rest) single
  have noLetter := stands.headIsNoLetter_rest
  have behindFree : Text.holdsTagStart (tag.binding ids false ++ tag.rest) = false :=
    Text.holdsTagStart_append (Text.holdsTagStart_of_absent absent) restFree noLetter
  have behindNoLetter : Text.headIsNoLetter (tag.binding ids false ++ tag.rest) = true := by
    unfold binding
    split
    · rfl
    · exact noLetter
  show Text.holdsTagStart (tag.name ++ tag.binding ids false ++ tag.rest) = false
  rw [List.append_assoc]
  exact Text.holdsTagStart_append nameFree behindFree behindNoLetter

/-- A named tag starts its own text. -/
theorem IsNamed.starts_text {tag : Tag} (named : tag.IsNamed) : tag.kind.starts tag.text = true := by
  rw [text_eq_head_append]
  exact named.starts tag.rest

/-- A tag that scoping has written starts where it did. -/
theorem IsNamed.starts_scopedText {tag : Tag} (named : tag.IsNamed) (ids : InstanceIds) :
    tag.kind.starts (tag.scopedText ids) = true := by
  rw [scopedText, List.append_assoc]
  exact named.starts _

/-- A settled tag that scoping has written is a lone text, as long as its attribute holds no
`<`. -/
theorem Settled.lone_scopedText {tag : Tag} (settled : tag.Settled)
    (single : Text.holdsTagStart (tag.text.drop 1) = false) {ids : InstanceIds}
    (absent : '<' ∉ tag.binding ids false) : Lone tag.kind (tag.scopedText ids) where
  starts := IsNamed.starts_scopedText settled.named ids
  free := (settled.stands []).free_scopedText single absent
  ends := by
    rw [scopedText, rest, settled.closed, ← List.append_assoc, List.getLast?_append]
    rfl

/-- The attribute of an element is the same for every table. -/
theorem angle_not_mem_binding_element {tag : Tag} (element : tag.kind = .element)
    (ids : InstanceIds) : '<' ∉ tag.binding ids false := by
  unfold binding
  split
  · rw [scopeAttribute_element element]
    decide
  · simp

/-- Names of components begin with a capital, so none is exempt. -/
theorem IsNamed.component_not_exempt {tag : Tag} (named : tag.IsNamed)
    (component : tag.kind = .component) : tag.isExempt = false := by
  obtain ⟨first, others, spelled, initial, _⟩ := named
  rw [component] at initial
  rw [Bool.eq_false_iff]
  intro exempt
  rw [isExempt, isExemptName, spelled, Bool.or_eq_true, beq_iff_eq, beq_iff_eq] at exempt
  rcases exempt with same | same
  · have small : first = 's' := (List.cons.inj same).1
    rw [small] at initial
    exact absurd initial (by decide)
  · have small : first = 's' := (List.cons.inj same).1
    rw [small] at initial
    exact absurd initial (by decide)

/-- What the first pass makes of a tag. -/
theorem Stands.scopeElements_text {tag : Tag} (stands : tag.Stands [])
    (single : Text.holdsTagStart (tag.text.drop 1) = false) (ids : InstanceIds) :
    ((Opening.pattern .element).edit (Word.adding Word.elementAddition?) tag.text).text =
      if tag.kind = .element then tag.scopedText ids else tag.text := by
  by_cases element : tag.kind = .element
  · have own := stands.edit_own single Word.elementAddition?
    rw [element] at own
    rw [if_pos element, own]
    by_cases opens : tag.isOpening = true <;> by_cases exempt : isExemptName tag.name = true <;>
      simp [scopedText, binding, isScoped, opens, exempt, isExempt, Word.elementAddition?,
        scopeAttribute_element element]
  · rw [if_neg element, Opening.edit_other stands.named.starts_text single (Ne.symm element)]

/-- What the second pass makes of a tag that the first one has written. -/
theorem Stands.scopeComponents_text {tag : Tag} (stands : tag.Stands [])
    (single : Text.holdsTagStart (tag.text.drop 1) = false) (ids : InstanceIds) :
    ((Opening.pattern .component).edit (Word.adding (Word.componentAddition? ids))
        (if tag.kind = .element then tag.scopedText ids else tag.text)).text =
      tag.scopedText ids := by
  by_cases element : tag.kind = .element
  · have free := stands.free_scopedText single (angle_not_mem_binding_element element ids)
    have starts := stands.named.starts_scopedText ids
    rw [if_pos element, Opening.edit_other starts free (by simp [element])]
  · have component : tag.kind = .component := by
      cases kind : tag.kind with
      | element => exact absurd kind element
      | component => rfl
    have own := stands.edit_own single (Word.componentAddition? ids)
    rw [component] at own
    rw [if_neg element, own]
    by_cases opens : tag.isOpening = true <;>
      simp [scopedText, binding, isScoped, opens, stands.named.component_not_exempt component,
        scopeAttribute_component component, Word.componentAddition?]

/-- The openings in a text that ends as a standing tag does are the same without what stands
behind the tag. -/
theorem Stands.parts_opening {tag : Tag} {behind : List Char} (stands : tag.Stands behind)
    (kind : TagKind) (front : List Char) :
    (Opening.pattern kind).Parts (front ++ tag.rest) behind := by
  rcases stands.edge with ends | rfl
  · have endsAll : (front ++ tag.rest).getLast? = some '>' := by
      rw [List.getLast?_append, ends]
      rfl
    exact (Opening.apart_of_getLast endsAll kind behind).parts
  · exact Pattern.parts_nil_right _ _

end Tag

namespace Scanned

variable {cut : Split Tag}

/-- No opening goes over the end of a tag of the cut. -/
theorem parts_opening (scanned : Scanned cut) (kind : TagKind) :
    ∀ front gap tag back, cut.hits = front ++ (gap, tag) :: back →
      (Opening.pattern kind).Parts tag.text ((⟨back, cut.tail⟩ : Split Tag).render Tag.text) := by
  intro front gap tag back cutAt
  rw [Tag.text_eq_head_append]
  exact (scanned.stands cutAt Tag.text).parts_opening kind tag.head

/-- Scoping a source whose tags start no others puts the attribute behind the name of each tag
that gets one, and keeps everything else. -/
theorem scope (scanned : Scanned cut)
    (single : ∀ tag ∈ cut.values, Text.holdsTagStart (tag.text.drop 1) = false)
    (ids : InstanceIds) :
    (scopeComponents ids (scopeElements (cut.render Tag.text)).text).text =
      cut.render (Tag.scopedText ids) := by
  have opened : ∀ tag ∈ cut.values, ∃ rest, tag.text = '<' :: rest := fun tag _ => ⟨_, rfl⟩
  have firstPass := scanned.edit (Opening.pattern .element) (Opening.pattern_startsTags .element)
    (Word.adding Word.elementAddition?) Tag.text opened (scanned.parts_opening .element)
  have written : cut.render (fun tag =>
      ((Opening.pattern .element).edit (Word.adding Word.elementAddition?) tag.text).text) =
        cut.render fun tag => if tag.kind = .element then tag.scopedText ids else tag.text :=
    Split.render_congr fun tag member =>
      (scanned.standing tag member).scopeElements_text (single tag member) ids
  have secondPass := scanned.edit (Opening.pattern .component)
    (Opening.pattern_startsTags .component) (Word.adding (Word.componentAddition? ids))
    (fun tag => if tag.kind = .element then tag.scopedText ids else tag.text)
    (fun tag member => by
      split
      · exact ⟨_, rfl⟩
      · exact opened tag member)
    (fun front gap tag back cutAt => by
      have stands := scanned.stands cutAt
        fun tag => if tag.kind = .element then tag.scopedText ids else tag.text
      split
      · exact stands.parts_opening .component (tag.head ++ tag.binding ids false)
      · rw [Tag.text_eq_head_append]
        exact stands.parts_opening .component tag.head)
  rw [Word.scopeElements_eq, firstPass, Word.scopeComponents_eq]
  dsimp only
  rw [written, secondPass]
  exact Split.render_congr fun tag member =>
    (scanned.standing tag member).scopeComponents_text (single tag member) ids

end Scanned

end ScopedMarkup
