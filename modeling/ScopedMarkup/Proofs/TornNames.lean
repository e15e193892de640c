import ScopedMarkup.Proofs.Backwards

/-!
# Torn names

If the name of a tag opens a spread that mentions `cssTarget`, the attribute behind the name
completes it, so the tag is read as a flat tag and the end of its name is removed. What then
stands in its place is a blank, a backtick, or what stood behind the attribute, and none of
these goes on as the name did. So a tag whose name is torn does not begin with its name any
more, whatever the passes make of the rest.

All other tags keep their names. A tag without faults keeps its head, and the name of an exempt
tag has no brace.
-/

namespace ScopedMarkup

universe u

/-- If something is read at a place of a text, there is a first such place. -/
theorem Pattern.exists_first {α : Type u} {pattern : Pattern α} {first second inside : List Char}
    {hit : α} (final : inside <:+ first) (present : inside ≠ [])
    (read : pattern.read? (inside ++ second) = some hit) :
    ∃ early late found, first = early ++ late ∧ late ≠ [] ∧
      pattern.Silent early (late ++ second) ∧ pattern.read? (late ++ second) = some found := by
  induction first with
  | nil => exact absurd (List.suffix_nil.mp final) present
  | cons c rest inductionHypothesis =>
    cases here : pattern.read? (c :: rest ++ second) with
    | some found =>
      exact ⟨[], c :: rest, found, rfl, List.cons_ne_nil _ _, pattern.silent_nil _, here⟩
    | none =>
      rcases List.suffix_cons_iff.mp final with rfl | within
      · exact absurd (here.symm.trans read) (by simp)
      · obtain ⟨early, late, found, rfl, presentLate, silent, reading⟩ := inductionHypothesis within
        refine ⟨c :: early, late, found, rfl, presentLate, ?_, reading⟩
        intro inner finalInner presentInner
        rcases List.suffix_cons_iff.mp finalInner with rfl | deeper
        · rw [List.cons_append, List.append_assoc] at here
          exact here
        · exact silent inner deeper presentInner

namespace Text

/-- Whether a blank or a backtick stands behind each `}` of a text but one at its end. -/
def pauses : List Char → Bool
  | [] => true
  | c :: rest => (c != '}' || rest.head?.all fun next => next == ' ' || next == '`') && pauses rest

theorem pauses_of_absent {text : List Char} (absent : '}' ∉ text) : pauses text = true := by
  induction text with
  | nil => rfl
  | cons c rest inductionHypothesis =>
    rw [List.mem_cons, not_or] at absent
    have other : c ≠ '}' := fun same => absent.1 same.symm
    rw [pauses, inductionHypothesis absent.2]
    simp [other]

theorem pauses_append {first second : List Char} (pause : pauses first = true)
    (pauseBehind : pauses second = true) (unclosed : first.getLast? ≠ some '}') :
    pauses (first ++ second) = true := by
  induction first with
  | nil => exact pauseBehind
  | cons c rest inductionHypothesis =>
    rw [pauses, Bool.and_eq_true] at pause
    rw [List.cons_append, pauses]
    cases rest with
    | nil =>
      have other : c ≠ '}' := by simpa using unclosed
      simp [other, pauseBehind]
    | cons next others =>
      rw [List.getLast?_cons_cons] at unclosed
      rw [inductionHypothesis pause.2 unclosed, Bool.and_true]
      exact pause.1

/-- What stands behind a `}` that is not the end. -/
theorem next_of_pauses {front behind : List Char} {c : Char}
    (pause : pauses (front ++ c :: behind) = true) (ends : front.getLast? = some '}') :
    c = ' ' ∨ c = '`' := by
  induction front with
  | nil => simp at ends
  | cons first rest inductionHypothesis =>
    rw [List.cons_append, pauses, Bool.and_eq_true] at pause
    cases rest with
    | nil =>
      have closing : first = '}' := by simpa using ends
      simpa [closing] using pause.1
    | cons next others =>
      rw [List.getLast?_cons_cons] at ends
      exact inductionHypothesis pause.2 ends

end Text

/-- Without a `}` no flat spread is read. -/
theorem CssSpread.silent_of_braceless {text : List Char} (braceless : '}' ∉ text) :
    pattern.Silent text [] := by
  refine Pattern.silent_of_forall_ne fun inside spread final _ read => ?_
  obtain ⟨behind, joined⟩ := eq_text_append_of_read read
  refine absurd (final.subset ?_) braceless
  rw [joined, CssSpread.text]
  simp

namespace Tag

variable {tag : Tag} {ids : InstanceIds}

/-- In an attribute with the parent's ids a blank or a backtick stands behind each `}` but the
last. -/
theorem pauses_binding (avoids : ids.Avoids ['<', '>', '{', '}']) (gets : tag.isScoped = true) :
    Text.pauses (tag.binding ids true) = true := by
  have idPauses : Text.pauses ((ids.get? (String.ofList tag.name)).getD "").toList = true := by
    refine Text.pauses_of_absent fun member => ?_
    exact avoids.getD (String.ofList tag.name) '}' member (by simp)
  have idOpen : ((ids.get? (String.ofList tag.name)).getD "").toList.getLast? ≠ some '}' := by
    intro last
    exact avoids.getD (String.ofList tag.name) '}' (List.mem_of_getLast? last) (by simp)
  have ownPauses : Text.pauses (tag.ownEntries ids) = true := by
    unfold ownEntries
    split
    · decide
    · simp only [String.toList_append, List.append_assoc]
      exact Text.pauses_append idPauses (by decide) idOpen
  have front : Text.pauses (' ' :: tag.kind.attributeOpening.toList ++ inheritedIdsEntry.toList) =
      true := by
    cases tag.kind <;> decide
  have frontOpen : (' ' :: tag.kind.attributeOpening.toList ++ inheritedIdsEntry.toList).getLast? ≠
      some '}' := by
    cases tag.kind <;> decide
  have whole : tag.binding ids true =
      (' ' :: tag.kind.attributeOpening.toList ++ inheritedIdsEntry.toList) ++ tag.ownEntries ids := by
    rw [binding, if_pos gets, scopeAttribute]
    simp
  rw [whole]
  exact Text.pauses_append front ownPauses frontOpen

/-- Exempt tags get no attribute, so their names are not torn. -/
theorem TearsName.unexempt (torn : tag.TearsName) : tag.isExempt = false := by
  have gets := torn.1
  rw [isScoped, Bool.and_eq_true] at gets
  simpa using gets.2

/-- A name without a brace is not torn. -/
theorem untorn_of_absent (absent : '{' ∉ tag.name) : ¬tag.TearsName := by
  rintro ⟨_, before, body, named, _⟩
  rw [named] at absent
  simp at absent

/-- Behind a name that would be torn stands no `}`: the spread would stray. -/
theorem Accepted.brace_not_mem_rest (accepted : tag.Accepted) (torn : tag.TearsName) :
    '}' ∉ tag.rest := by
  obtain ⟨_, before, body, named, unclosed, mentioned⟩ := torn
  intro closed
  obtain ⟨early, late, spelled, free⟩ := List.eq_append_cons_of_mem closed
  have unread := accepted.head _ (suffix_head_of_name named) (List.cons_ne_nil _ _)
  have read := @CssSpread.read_mentioned body early late mentioned unclosed free
  rw [← spelled] at read
  exact absurd (read.symm.trans unread) (by simp)

/-- The first removal in such a tag begins in the head, where no `}` stands behind its place. -/
theorem Accepted.exists_removal (accepted : tag.Accepted) (torn : tag.TearsName)
    (ids : InstanceIds) (shown : List Char) :
    ∃ early late removed rest, tag.head = early ++ '{' :: late ∧ '}' ∉ late ∧
      CssSpread.pattern.Silent early (removed ++ rest) ∧
      '{' :: late ++ (tag.binding ids true ++ shown) = removed ++ rest ∧
      removal? (removed ++ rest) = some removed := by
  obtain ⟨gets, before, body, named, unclosed, mentioned⟩ := torn
  obtain ⟨lead, others, spelled, free⟩ : ∃ lead others,
      tag.binding ids true = lead ++ '}' :: others ∧ '}' ∉ lead := by
    refine ⟨' ' :: (tag.kind.attributeOpening.toList ++ ("$\x7b" ++ inheritedIdsVariable).toList),
      ' ' :: tag.ownEntries ids, ?_, ?_⟩
    · rw [binding_forwarding gets ids]
      simp
    · cases tag.kind <;> decide
  have read := @CssSpread.read_mentioned body lead (others ++ shown) mentioned unclosed free
  rw [← List.cons_append, ← List.append_assoc lead, ← spelled] at read
  obtain ⟨early, late, found, spelledHead, present, silent, reading⟩ :=
    @Pattern.exists_first _ CssSpread.pattern _ _ _ _ (suffix_head_of_name named)
      (List.cons_ne_nil _ _) read
  obtain ⟨first, late, rfl⟩ := List.exists_cons_of_ne_nil present
  obtain ⟨_, opened⟩ := (CssSpread.opens_of_read reading).eq_cons
  obtain ⟨rfl, _⟩ := List.cons.inj opened
  have readingHere : CssSpread.read? ('{' :: late ++ (tag.binding ids true ++ shown)) =
    some found := reading
  have bracelessLate : '}' ∉ late := fun closed =>
    accepted.brace_not_mem_of_read (by rw [spelledHead]; exact List.suffix_append _ _)
      (List.cons_ne_nil _ _) readingHere (List.mem_cons_of_mem _ closed)
  obtain ⟨removed, removes⟩ := exists_removal_iff.mpr ⟨found, readingHere⟩
  obtain ⟨_, rest, joined⟩ := prefix_of_removal removes
  refine ⟨early, late, removed, rest, spelledHead, bracelessLate, ?_, joined.symm, ?_⟩
  · rw [joined]
    exact silent
  · rw [joined]
    exact removes

/-- Removal tears the head of such a tag: another character stands where the head goes on. -/
theorem Settled.withoutSpreads_torn (settled : tag.Settled) (accepted : tag.Accepted)
    (avoids : ids.Avoids ['<', '>', '{', '}']) (torn : tag.TearsName)
    {shown behind : List Char} (spelled : tag.rest = shown ++ behind) (present : shown ≠ []) :
    ∃ early late c others, tag.head = early ++ '{' :: late ∧
      withoutSpreads (tag.head ++ tag.binding ids true ++ shown) = Text.trimEnd early ++ c :: others ∧
      (c = ' ' ∨ c = '`' ∨ isNameChar c = false) := by
  have braceless := accepted.brace_not_mem_rest torn
  have bracelessShown : '}' ∉ shown := by
    intro member
    refine braceless ?_
    rw [spelled]
    exact List.mem_append_left _ member
  obtain ⟨early, late, removed, rest, spelledHead, bracelessLate, silent, joined, read⟩ :=
    accepted.exists_removal torn ids shown
  have ends := removal_getLast read
  have bracelessFront : '}' ∉ '{' :: late := by simp [bracelessLate]
  obtain ⟨more, rfl, inBinding, endsMore⟩ := Text.exists_beyond joined ends bracelessFront
  -- The removal ends in the attribute, for no other `}` stands behind the name.
  obtain ⟨left, spelledBinding, rfl⟩ := Text.exists_within inBinding endsMore bracelessShown
  have silentBinding := CssSpread.silent_of_blocked (@blocked_binding tag ids avoids true) shown
  rw [spelledBinding] at silentBinding
  have silentRest : CssSpread.pattern.Silent (left ++ shown) [] := by
    refine Pattern.Silent.append ?_ (CssSpread.silent_of_braceless bracelessShown)
    rw [List.append_nil]
    exact silentBinding.of_suffix (List.suffix_append more left)
  have removedHere := withoutSpreads_append silent read
  rw [withoutSpreads_of_silent silentRest] at removedHere
  have written : withoutSpreads (tag.head ++ tag.binding ids true ++ shown) =
      Text.trimEnd early ++ (left ++ shown) := by
    rw [← removedHere, spelledHead, ← joined]
    simp
  cases left with
  | cons c others =>
    refine ⟨early, late, c, others ++ shown, spelledHead, written, ?_⟩
    have pause := @pauses_binding tag ids avoids torn.1
    rw [spelledBinding] at pause
    rcases Text.next_of_pauses pause endsMore with blank | backtick
    · exact Or.inl blank
    · exact Or.inr (Or.inl backtick)
  | nil =>
    obtain ⟨c, others, rfl⟩ := List.exists_cons_of_ne_nil present
    refine ⟨early, late, c, others, spelledHead, written, Or.inr (Or.inr ?_)⟩
    obtain ⟨next, more, spelledRest, ended⟩ := settled.rest_eq_cons
    rw [spelled] at spelledRest
    rw [(List.cons.inj spelledRest).1]
    exact ended

/-- Whatever stands behind, the tag does not begin with its name any more. -/
theorem Settled.head_not_prefix (settled : tag.Settled) (accepted : tag.Accepted)
    (avoids : ids.Avoids ['<', '>', '{', '}']) (torn : tag.TearsName)
    {shown behind : List Char} (spelled : tag.rest = shown ++ behind) (present : shown ≠ [])
    (more : List Char) :
    ¬tag.head <+: withoutSpreads (tag.head ++ tag.binding ids true ++ shown) ++ more := by
  obtain ⟨early, late, c, others, spelledHead, written, stands⟩ :=
    settled.withoutSpreads_torn accepted avoids torn spelled present
  obtain ⟨blanks, whole, blank⟩ := Text.exists_blanks early
  rw [written, spelledHead, List.append_assoc]
  have named := settled.head_named
  rw [spelledHead] at named
  intro initial
  rw [whole, List.append_assoc, ← whole, List.prefix_append_right_inj] at initial
  cases blanks with
  | nil =>
    have same : '{' = c := (List.cons_prefix_cons.mp initial).1
    subst same
    exact absurd stands (by decide)
  | cons first others =>
    have same : first = c := (List.cons_prefix_cons.mp initial).1
    subst same
    have inEarly : first ∈ early := by
      rw [whole]
      simp
    have isName := named first (List.mem_append_left _ inEarly)
    have isBlank := blank first List.mem_cons_self
    rcases stands with rfl | rfl | unnamed
    · exact absurd isName (by decide)
    · exact absurd isBlank (by decide)
    · exact absurd isName (by simp [unnamed])

/-- Whether a flat spread is read in the head of a scoped tag, attribute included. -/
def isForged (ids : InstanceIds) (tag : Tag) : Bool :=
  CssSpread.pattern.occursIn (tag.head ++ tag.binding ids false)

/-- A tag with a flat spread in its head is read as a flat tag. -/
theorem Settled.isForwarded_of_isForged (settled : tag.Settled)
    (avoids : ids.Avoids ['<', '>', '{', '}']) (forged : tag.isForged ids = true) :
    tag.isForwarded ids = true := by
  rw [isForged, Pattern.occursIn_iff] at forged
  obtain ⟨inside, spread, ⟨before, spelled⟩, present, read⟩ := forged
  have whole : tag.scopedText ids = before ++ (inside ++ tag.rest) := by
    rw [scopedText, ← spelled, List.append_assoc]
  have starts : tag.kind.starts (tag.scopedText ids) = true := by
    rw [scopedText, List.append_assoc]
    exact settled.starts _
  have freeHead := settled.angle_not_mem_front avoids false
  have free : '>' ∉ before := by
    intro member
    rw [← spelled] at freeHead
    exact freeHead (List.mem_append_left _ member)
  have closing : '>' ∈ tag.rest := by
    rw [rest, settled.closed]
    exact List.mem_append_right _ List.mem_cons_self
  rw [whole] at starts
  have found := ForwardingTag.read_isSome starts free (CssSpread.read_append read tag.rest) (by
    rw [List.drop_append_of_le_length (CssSpread.text_of_read read).2.length_le]
    exact List.mem_append_right _ closing)
  rw [isForwarded, whole]
  exact found

/-- A name that would be torn opens a spread that the attribute completes. -/
theorem TearsName.isForged (torn : tag.TearsName) (ids : InstanceIds) :
    tag.isForged ids = true := by
  obtain ⟨gets, before, body, named, unclosed, mentioned⟩ := torn
  have closed := List.mem_of_getLast? (binding_getLast gets ids false)
  obtain ⟨lead, others, spelled, free⟩ := List.eq_append_cons_of_mem closed
  have read := @CssSpread.read_mentioned body lead others mentioned unclosed free
  rw [← spelled] at read
  rw [Tag.isForged, Pattern.occursIn_iff]
  refine ⟨'{' :: '.' :: '.' :: '.' :: body ++ tag.binding ids false, _, ⟨'<' :: before, ?_⟩, ?_,
    read⟩
  · rw [head, named]
    simp
  · exact List.cons_ne_nil _ _

end Tag

/-- A pass over tags of a kind keeps what a text begins with, if no tag of the kind starts
there. -/
theorem prefix_of_forwardScope {kind : TagKind} {front text : List Char}
    (unstarted : ∀ inside, inside <:+ front → kind.starts inside = false)
    (initial : front <+: (forwardScope kind text).text) : front <+: text := by
  induction front generalizing text with
  | nil => exact List.nil_prefix
  | cons c rest inductionHypothesis =>
    cases text with
    | nil => exact initial
    | cons first others =>
      cases read : (ForwardingTag.pattern kind).read? (first :: others) with
      | none =>
        rw [forwardScope_cons read] at initial
        obtain ⟨rfl, later⟩ := List.cons_prefix_cons.mp initial
        refine List.cons_prefix_cons.mpr ⟨rfl, inductionHypothesis ?_ later⟩
        exact fun inside final => unstarted inside (final.trans (List.suffix_cons _ rest))
      | some hit =>
        obtain ⟨known, _⟩ := ForwardingTag.read_spec read
        obtain ⟨more, merged⟩ := ForwardingTag.merged_open read
        obtain ⟨_, behind, joined⟩ := (ForwardingTag.pattern kind).text_of_read read
        rw [← joined] at read initial ⊢
        rw [forwardScope_append read, merged] at initial
        obtain ⟨rfl, later⟩ := List.cons_prefix_cons.mp initial
        cases rest with
        | nil => exact ⟨_, rfl⟩
        | cons next others =>
          obtain ⟨rfl, _⟩ := List.cons_prefix_cons.mp later
          have unread := unstarted _ List.suffix_rfl
          rw [TagKind.starts_open, known] at unread
          exact absurd unread (by decide)

namespace Tag

variable {tag : Tag} {ids : InstanceIds}

/-- The pass over its own kind tears such a tag. -/
theorem Settled.forwardScope_torn (settled : tag.Settled) (accepted : tag.Accepted)
    (avoids : ids.Avoids ['<', '>', '{', '}']) (torn : tag.TearsName) :
    ¬tag.head <+: (forwardScope tag.kind (tag.scopedText ids)).text := by
  obtain ⟨hit, read⟩ := Option.isSome_iff_exists.mp
    (settled.isForwarded_of_isForged avoids (torn.isForged ids))
  obtain ⟨shown, behind, spelled, hitText⟩ := settled.hit_shape avoids read
  have joined : tag.scopedText ids = hit.text ++ behind := by
    rw [hitText, scopedText, spelled, List.append_assoc, List.append_assoc, List.append_assoc]
  have present : shown ≠ [] := by
    rintro rfl
    have ends := hit.text_getLast
    rw [hitText, List.append_nil, List.getLast?_append, binding_getLast torn.1] at ends
    exact absurd (show some '}' = some '>' from ends) (by decide)
  have merged : hit.merged tag.kind =
      withoutSpreads (tag.head ++ tag.binding ids true ++ shown) := by
    rw [ForwardingTag.merged, hitText, accepted.insertAfterFirst spelled]
  rw [joined] at read ⊢
  rw [show (forwardScope tag.kind (hit.text ++ behind)).text = _ from forwardScope_append read, merged]
  exact settled.head_not_prefix accepted avoids torn spelled present _

/-- No tag of another kind starts in the head of a tag that starts one tag. -/
theorem Settled.unstarted_head (settled : tag.Settled)
    (single : Text.holdsTagStart (tag.text.drop 1) = false) {other : TagKind}
    (different : other ≠ tag.kind) (inside : List Char) (final : inside <:+ tag.head) :
    other.starts inside = false := by
  have lone := settled.lone single
  rw [Bool.eq_false_iff]
  intro starts
  rcases List.suffix_cons_iff.mp final with rfl | within
  · have unstarted := TagKind.starts_other lone.starts different
    rw [text_eq_head_append] at unstarted
    obtain ⟨c, more, spelled, initial⟩ := TagKind.starts_iff.mp starts
    rw [show tag.head = _ from spelled, List.cons_append, List.cons_append,
      TagKind.starts_open, initial] at unstarted
    exact absurd unstarted (by decide)
  · have free := lone.free
    rw [text_eq_head_append] at free
    have nameFree : Text.holdsTagStart tag.name = false := Text.holdsTagStart_of_append free
    have start := Text.startsTag_iff.mpr ⟨_, starts⟩
    rw [Text.holdsTagStart_iff.mpr ⟨inside, within, start⟩] at nameFree
    exact absurd nameFree (by decide)

/-- A tag that the passes let begin with its name has no name that is torn. -/
theorem Settled.untorn_of_prefix (settled : tag.Settled) (accepted : tag.Accepted)
    (single : Text.holdsTagStart (tag.text.drop 1) = false)
    (avoids : ids.Avoids ['<', '>', '{', '}']) (kept : tag.head <+: tag.resolvedText ids) :
    ¬tag.TearsName := by
  intro torn
  have lone := settled.lone_scopedText single (@angle_not_mem_binding tag ids avoids false).1
  have own := settled.forwardScope_torn accepted avoids torn
  rw [resolvedText, elementForwarded] at kept
  cases kind : tag.kind with
  | component =>
    have different : TagKind.element ≠ tag.kind := by
      rw [kind]
      decide
    rw [kind] at own
    rw [lone.forwardScope_other different] at kept
    exact own kept
  | element =>
    have different : TagKind.component ≠ tag.kind := by
      rw [kind]
      decide
    rw [kind] at own
    exact own (prefix_of_forwardScope (settled.unstarted_head single different) kept)

end Tag

end ScopedMarkup
