import ScopedMarkup.Proofs.Written

/-!
# Passes read backwards

A pass that forwards scopes can be read backwards along a text that is written from a cut. A
gap in what it wrote was there before, for whatever the pass writes starts a tag. A part that
ends with `>` was written from a part that ends with `>` too, provided that each flat tag was
rewritten to a text with no `>` before its end: no hit can then go over the end of the part.

So if the last pass wrote a text from a cut, the text that it read was written from the cut
as well, and the pass parted it there. Two passes backwards the cut is written by scoping, and
that writing is the only one. Hence both passes were confined.
-/

namespace ScopedMarkup

/-- Whether each flat tag that a pass takes in a text is rewritten to a text that holds no `>`
before its end. -/
def ForwardingTag.Clears (kind : TagKind) (text : List Char) : Prop :=
  ∀ tag ∈ ((pattern kind).split text).values, '>' ∉ (tag.merged kind).dropLast

instance (kind : TagKind) (text : List Char) : Decidable (ForwardingTag.Clears kind text) :=
  inferInstanceAs (Decidable (∀ tag ∈ _, _))

section

variable {kind : TagKind}

/-- A pass keeps a character at which it reads nothing. -/
theorem forwardScope_cons {c : Char} {rest : List Char}
    (unread : (ForwardingTag.pattern kind).read? (c :: rest) = none) :
    (forwardScope kind (c :: rest)).text = c :: (forwardScope kind rest).text := by
  rw [forwardScope, Pattern.edit_of_read_none _ _ c rest unread]
  rfl

/-- A pass rewrites what it reads and goes on behind it. -/
theorem forwardScope_append {hit : ForwardingTag} {behind : List Char}
    (read : (ForwardingTag.pattern kind).read?
      ((ForwardingTag.pattern kind).text hit ++ behind) = some hit) :
    (forwardScope kind ((ForwardingTag.pattern kind).text hit ++ behind)).text =
      hit.merged kind ++ (forwardScope kind behind).text :=
  congrArg Edit.text (forwardScope_append_of_read read)

/-- A text that a pass leaves empty was empty. -/
theorem eq_nil_of_forwardScope {text : List Char} (emptied : (forwardScope kind text).text = []) :
    text = [] := by
  cases text with
  | nil => rfl
  | cons c rest =>
    cases read : (ForwardingTag.pattern kind).read? (c :: rest) with
    | none =>
      rw [forwardScope_cons read] at emptied
      exact absurd emptied (List.cons_ne_nil _ _)
    | some hit =>
      obtain ⟨others, spelled⟩ := ForwardingTag.merged_open read
      obtain ⟨_, behind, joined⟩ := (ForwardingTag.pattern kind).text_of_read read
      rw [← joined] at read emptied
      rw [forwardScope_append read, spelled] at emptied
      exact absurd emptied (List.cons_ne_nil _ _)

/-- What a pass writes for a flat tag starts a tag. -/
theorem ForwardingTag.startsTag_merged {input : List Char} {tag : ForwardingTag}
    (read : (pattern kind).read? input = some tag) (behind : List Char) :
    Text.startsTag (tag.merged kind ++ behind) = true := by
  obtain ⟨known, _⟩ := read_spec read
  obtain ⟨others, spelled⟩ := merged_open read
  rw [spelled]
  exact (TagKind.isInitial_iff_isAlpha _).mp ⟨kind, known⟩

/-- Where a tag starts behind a pass, one started before it. -/
theorem startsTag_of_forwardScope {text : List Char}
    (start : Text.startsTag (forwardScope kind text).text = true) : Text.startsTag text = true := by
  cases text with
  | nil => exact start
  | cons c rest =>
    cases read : (ForwardingTag.pattern kind).read? (c :: rest) with
    | some hit => exact ForwardingTag.pattern_startsTags kind _ hit read
    | none =>
      rw [forwardScope_cons read] at start
      obtain ⟨other, starts⟩ := Text.startsTag_iff.mp start
      obtain ⟨initial, others, spelled, known⟩ := TagKind.starts_iff.mp starts
      obtain ⟨rfl, behind⟩ := List.cons.inj spelled
      have letter : initial.isAlpha = true := (TagKind.isInitial_iff_isAlpha initial).mp ⟨other, known⟩
      cases rest with
      | nil => exact absurd behind (by simp [forwardScope, Pattern.edit, Split.render])
      | cons next more =>
        cases readNext : (ForwardingTag.pattern kind).read? (next :: more) with
        | none =>
          rw [forwardScope_cons readNext] at behind
          rw [(List.cons.inj behind).1]
          exact letter
        | some hit =>
          obtain ⟨_, late, joined⟩ := (ForwardingTag.pattern kind).text_of_read readNext
          obtain ⟨written, merged⟩ := ForwardingTag.merged_open readNext
          rw [← joined] at readNext behind
          rw [forwardScope_append readNext, merged] at behind
          rw [← (List.cons.inj behind).1] at letter
          exact absurd letter (by decide)

/-- A gap behind a pass was there before it. -/
theorem forwardScope_gap {text gap written : List Char} (free : Text.holdsTagStart gap = false)
    (apart : Text.headIsNoLetter written = true)
    (edited : (forwardScope kind text).text = gap ++ written) :
    ∃ behind, text = gap ++ behind ∧ (ForwardingTag.pattern kind).Silent gap behind ∧
      (forwardScope kind behind).text = written := by
  induction gap generalizing text with
  | nil => exact ⟨text, rfl, Pattern.silent_nil _ _, edited⟩
  | cons c gap inductionHypothesis =>
    cases text with
    | nil => exact absurd edited.symm (List.cons_ne_nil _ _)
    | cons first rest =>
      cases read : (ForwardingTag.pattern kind).read? (first :: rest) with
      | some hit =>
        exfalso
        obtain ⟨_, late, joined⟩ := (ForwardingTag.pattern kind).text_of_read read
        have start := ForwardingTag.startsTag_merged read (forwardScope kind late).text
        rw [← joined] at read edited
        rw [← forwardScope_append read, edited,
          Text.startsTag_append free List.suffix_rfl (List.cons_ne_nil c gap) apart] at start
        exact absurd start Bool.false_ne_true
      | none =>
        rw [forwardScope_cons read, List.cons_append] at edited
        obtain ⟨rfl, editedRest⟩ := List.cons.inj edited
        obtain ⟨behind, rfl, silent, editedBehind⟩ :=
          inductionHypothesis (Text.holdsTagStart_of_suffix (List.suffix_cons _ gap) free) editedRest
        refine ⟨behind, rfl, ?_, editedBehind⟩
        intro inside final present
        rcases List.suffix_cons_iff.mp final with rfl | within
        · exact read
        · exact silent inside within present

/-- Behind a silent text a pass takes what it takes. -/
theorem ForwardingTag.Clears.of_silent {gap behind : List Char} (clears : Clears kind (gap ++ behind))
    (silent : (pattern kind).Silent gap behind) : Clears kind behind := by
  intro tag member
  refine clears tag ?_
  rw [(pattern kind).split_append_of_silent gap behind silent, Split.values_append]
  exact List.mem_append_right _ member

/-- No flat tag is read in a text if none is read with more behind it. -/
theorem ForwardingTag.read_none_of_append {text more : List Char}
    (unread : read? kind (text ++ more) = none) : read? kind text = none := by
  cases alone : read? kind text with
  | none => rfl
  | some tag =>
    have longer := read_isSome_append (by rw [alone]; rfl) more
    rw [unread] at longer
    exact absurd longer (by decide)

/-- A part that ends with `>` does not end within a text that has no `>` before its end. -/
theorem exists_append_of_cleared {cleared part behind written : List Char}
    (free : '>' ∉ cleared.dropLast) (ends : part.getLast? = some '>')
    (joined : cleared ++ behind = part ++ written) :
    ∃ others, part = cleared ++ others ∧ behind = others ++ written := by
  rcases List.append_eq_append_iff.mp joined with ⟨others, same, rest⟩ | ⟨others, same, rest⟩
  · exact ⟨others, same, rest⟩
  · cases others with
    | nil => exact ⟨[], by simpa using same.symm, by simpa using rest.symm⟩
    | cons next more =>
      exfalso
      rw [same, List.dropLast_append_of_ne_nil (List.cons_ne_nil _ _)] at free
      exact free (List.mem_append_left _ (List.mem_of_getLast? ends))

/-- What a pass takes first and what it takes behind it are both cleared. -/
theorem ForwardingTag.Clears.of_read {hit : ForwardingTag} {behind : List Char}
    (read : (pattern kind).read? ((pattern kind).text hit ++ behind) = some hit)
    (clears : Clears kind ((pattern kind).text hit ++ behind)) :
    '>' ∉ (hit.merged kind).dropLast ∧ Clears kind behind := by
  have taken : ((pattern kind).split ((pattern kind).text hit ++ behind)).values =
      hit :: ((pattern kind).split behind).values := by
    rw [(pattern kind).split_append hit behind read, Split.values_precede]
  constructor
  · apply clears hit
    rw [taken]
    exact List.mem_cons_self
  · intro tag member
    apply clears tag
    rw [taken]
    exact List.mem_cons_of_mem hit member

/-- Where a part and what stands behind it were written from. -/
structure ForwardingTag.Origin (kind : TagKind) (part written front behind : List Char) : Prop where
  /-- The pass parts the text between the two. -/
  parts : (pattern kind).Parts front behind
  /-- The front becomes the part. -/
  wrotePart : (forwardScope kind front).text = part
  /-- What stands behind the front becomes what stands behind the part. -/
  wroteRest : (forwardScope kind behind).text = written
  /-- The front ends as the part does. -/
  ends : front ≠ [] → front.getLast? = some '>'
  /-- What stands behind the front is cleared. -/
  clears : Clears kind behind

namespace ForwardingTag.Origin

variable {part written front behind : List Char}

/-- A character that a pass keeps is a part of both. -/
theorem cons {c : Char} (unread : (pattern kind).read? (c :: (front ++ behind)) = none)
    (last : (c :: part).getLast? = some '>') (origin : Origin kind part written front behind) :
    Origin kind (c :: part) written (c :: front) behind where
  parts := origin.parts.cons (read_none_of_append unread) unread
  wrotePart := by
    rw [forwardScope_cons (read_none_of_append unread), origin.wrotePart]
  wroteRest := origin.wroteRest
  ends := by
    intro _
    cases front with
    | nil =>
      have nothing : part = [] := origin.wrotePart.symm
      rw [nothing] at last
      simpa using last
    | cons next others =>
      rw [List.getLast?_cons_cons]
      exact origin.ends (List.cons_ne_nil _ _)
  clears := origin.clears

/-- A flat tag that a pass takes is rewritten in the part. -/
theorem precede {hit : ForwardingTag}
    (read : (pattern kind).read? ((pattern kind).text hit ++ (front ++ behind)) = some hit)
    (origin : Origin kind part written front behind) :
    Origin kind (hit.merged kind ++ part) written ((pattern kind).text hit ++ front) behind := by
  have readFront : (pattern kind).read? ((pattern kind).text hit ++ front) = some hit := by
    have whole : read? kind ((hit.text ++ front) ++ behind) = some hit := by
      rw [List.append_assoc]
      exact read
    exact read_of_within whole (by simp)
  constructor
  · exact origin.parts.precede readFront read
  · rw [forwardScope_append readFront, origin.wrotePart]
  · exact origin.wroteRest
  · intro _
    cases front with
    | nil =>
      rw [List.append_nil]
      exact hit.text_getLast
    | cons next more =>
      rw [List.getLast?_append, origin.ends (List.cons_ne_nil _ _)]
      rfl
  · exact origin.clears

end ForwardingTag.Origin

/-- A part behind a pass that ends with `>` was written from such a part. -/
theorem forwardScope_part {text part written : List Char} (clears : ForwardingTag.Clears kind text)
    (ends : part ≠ [] → part.getLast? = some '>')
    (edited : (forwardScope kind text).text = part ++ written) :
    ∃ front behind, text = front ++ behind ∧ ForwardingTag.Origin kind part written front behind := by
  induction bound : text.length using Nat.strongRecOn generalizing text part with
  | ind size inductionHypothesis =>
    cases part with
    | nil =>
      exact ⟨[], text, rfl, Pattern.parts_nil _ _, rfl, edited, fun present => absurd rfl present,
        clears⟩
    | cons first part =>
      have last := ends (List.cons_ne_nil _ _)
      have endsLate : ∀ late, late <:+ first :: part → late ≠ [] → late.getLast? = some '>' :=
        fun late final present => (Text.getLast?_of_suffix final present).symm.trans last
      cases text with
      | nil => exact absurd edited.symm (List.cons_ne_nil _ _)
      | cons c rest =>
        cases read : (ForwardingTag.pattern kind).read? (c :: rest) with
        | none =>
          rw [forwardScope_cons read, List.cons_append] at edited
          obtain ⟨rfl, editedRest⟩ := List.cons.inj edited
          have silent : (ForwardingTag.pattern kind).Silent [c] rest := by
            intro inside final present
            rcases List.suffix_cons_iff.mp final with rfl | within
            · exact read
            · exact absurd (List.suffix_nil.mp within) present
          obtain ⟨front, behind, rfl, origin⟩ := inductionHypothesis rest.length
            (by rw [← bound]; exact Nat.lt_succ_self _)
            (ForwardingTag.Clears.of_silent clears silent)
            (endsLate part (List.suffix_cons _ _)) editedRest rfl
          exact ⟨c :: front, behind, rfl, origin.cons read last⟩
        | some hit =>
          obtain ⟨present, late, joined⟩ := (ForwardingTag.pattern kind).text_of_read read
          have covered : 0 < ((ForwardingTag.pattern kind).text hit).length :=
            List.length_pos_iff.mpr present
          rw [← joined] at read edited clears bound
          obtain ⟨cleared, clearsLate⟩ := clears.of_read read
          have writtenWhole := (forwardScope_append read).symm.trans edited
          obtain ⟨others, same, editedLate⟩ := exists_append_of_cleared cleared last writtenWhole
          obtain ⟨front, behind, rfl, origin⟩ := inductionHypothesis late.length
            (by rw [← bound, List.length_append]; omega) clearsLate
            (endsLate others (by rw [same]; exact List.suffix_append _ _)) editedLate rfl
          refine ⟨(ForwardingTag.pattern kind).text hit ++ front, behind, ?_, ?_⟩
          · rw [List.append_assoc]
            exact joined.symm
          · rw [same]
            exact origin.precede read

/-- What a pass writes from a cut it read from that cut, and it parted the tags. -/
theorem Split.Written.before_pass {shape : Tag → List Char → List Char → Prop} {cut : Split Tag}
    (tidy : Tidy cut)
    (shaped : ∀ tag part behind, shape tag part behind →
      Text.startsTag part = true ∧ part.getLast? = some '>')
    {text : List Char} (clears : ForwardingTag.Clears kind text)
    (written : cut.Written shape (forwardScope kind text).text) :
    cut.Written (fun tag part behind =>
      (Text.startsTag part = true ∧ part.getLast? = some '>') ∧
        (ForwardingTag.pattern kind).Parts part behind ∧
        shape tag (forwardScope kind part).text (forwardScope kind behind).text) text := by
  obtain ⟨hits, tail⟩ := cut
  generalize edited : (forwardScope kind text).text = result at written
  induction hits generalizing text result with
  | nil =>
    cases written
    rw [← List.append_nil tail] at edited
    obtain ⟨behind, rfl, _, editedBehind⟩ := forwardScope_gap tidy.tail rfl edited
    rw [eq_nil_of_forwardScope editedBehind, List.append_nil]
    exact .tail tail
  | cons first others inductionHypothesis =>
    cases written with
    | hit gap part writtenBehind _ tag _ shapedHere later =>
      obtain ⟨start, ends⟩ := shaped tag part writtenBehind shapedHere
      obtain ⟨rest, rfl, silent, editedRest⟩ := forwardScope_gap
        (tidy.gaps (gap, tag) List.mem_cons_self) (Text.headIsNoLetter_of_starts start _) edited
      obtain ⟨front, behind, rfl, parts, rfl, rfl, endsFront, clearsBehind⟩ :=
        forwardScope_part (clears.of_silent silent) (fun _ => ends) editedRest
      have startFront := startsTag_of_forwardScope start
      have present : front ≠ [] := by
        rintro rfl
        exact absurd startFront (by decide)
      exact .hit gap front behind tail tag others
        ⟨⟨startFront, endsFront present⟩, parts, shapedHere⟩
        (inductionHypothesis clearsBehind tidy.of_cons _ rfl later)

end

/-- Whether a part begins with the name of a tag behind `<` and ends with `>`. -/
def Tag.Keeps (tag : Tag) (part : List Char) : Prop :=
  tag.head <+: part ∧ part.getLast? = some '>'

namespace Tidy

variable {cut : Split Tag} {ids : InstanceIds}

/-- What stands behind some tags of a tidy cut is tidy. -/
theorem of_append (tidy : Tidy cut) {front back : List (List Char × Tag)} {gap : List Char}
    {tag : Tag} (cutAt : cut.hits = front ++ (gap, tag) :: back) : Tidy ⟨back, cut.tail⟩ where
  gaps hit member := tidy.gaps hit (by rw [cutAt]; simp [member])
  tail := tidy.tail
  settled other member := tidy.settled other (by
    rw [Split.values, cutAt, List.map_append, List.map_cons]
    exact List.mem_append_right _ (List.mem_cons_of_mem _ member))
  single other member := tidy.single other (by
    rw [Split.values, cutAt, List.map_append, List.map_cons]
    exact List.mem_append_right _ (List.mem_cons_of_mem _ member))

/-- If the passes write a text from a cut, then they are confined to its tags, and the names
of the tags are kept. -/
theorem confined_of_written (tidy : Tidy cut)
    (lone : ∀ tag ∈ cut.values, Lone tag.kind (tag.scopedText ids))
    (clearsElements : ForwardingTag.Clears .element (cut.render (Tag.scopedText ids)))
    (clearsComponents : ForwardingTag.Clears .component
      (forwardScope .element (cut.render (Tag.scopedText ids))).text)
    (written : cut.Written (fun tag part _ => tag.Keeps part) (forwardScope .component
      (forwardScope .element (cut.render (Tag.scopedText ids))).text).text) :
    Confined ids cut ∧ ∀ tag ∈ cut.values, tag.head <+: tag.resolvedText ids := by
  have kept : cut.Written (fun tag part _ => (Text.startsTag part = true ∧
      part.getLast? = some '>') ∧ tag.head <+: part) (forwardScope .component
        (forwardScope .element (cut.render (Tag.scopedText ids))).text).text := by
    refine written.imp fun tag member part behind keeps => ?_
    obtain ⟨⟨others, rfl⟩, ends⟩ := keeps
    exact ⟨⟨Text.startsTag_iff.mpr ⟨_, (tidy.settled tag member).starts others⟩, ends⟩,
      List.prefix_append _ _⟩
  have beforeComponents := kept.before_pass tidy (fun _ _ _ shaped => shaped.1) clearsComponents
  have beforeElements := beforeComponents.before_pass tidy (fun _ _ _ shaped => shaped.1)
    clearsElements
  have shaped := tidy.shape_of_written lone (fun _ _ _ shaped => shaped.1.1) beforeElements
  have elements : cut.Confines (ForwardingTag.pattern .element) (Tag.scopedText ids) :=
    fun front gap tag back cutAt => (shaped front gap tag back cutAt).2.1
  have components : cut.Confines (ForwardingTag.pattern .component) (Tag.elementForwarded ids) := by
    intro front gap tag back cutAt
    have confinedBehind : (⟨back, cut.tail⟩ : Split Tag).Confines (ForwardingTag.pattern .element)
        (Tag.scopedText ids) := by
      intro frontBehind gapBehind tagBehind backBehind cutBehind
      refine elements (front ++ (gap, tag) :: frontBehind) gapBehind tagBehind backBehind ?_
      rw [cutAt, show back = _ from cutBehind]
      simp
    have parts := (shaped front gap tag back cutAt).2.2.2.1
    rw [(tidy.of_append cutAt).forwardElements confinedBehind] at parts
    exact parts
  refine ⟨⟨elements, components⟩, ?_⟩
  intro tag member
  obtain ⟨⟨gap, _⟩, inHits, rfl⟩ := List.mem_map.mp member
  obtain ⟨front, back, cutAt⟩ := List.append_of_mem inHits
  exact (shaped front gap _ back cutAt).2.2.2.2.2

end Tidy

end ScopedMarkup
