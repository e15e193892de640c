import ScopedMarkup.Proofs.Bindings

/-!
# What forwarding makes of a tag

A tag without faults whose name is not torn keeps its head through the last two passes. Behind
the head stands the attribute, with the parent's ids if the tag was read as a flat tag, and
then everything that followed, less the flat spreads and the blanks before them.

A flat tag need not reach to the end of the tag it is read in: a `>` in a value may end it
early. But then the tag forwards nothing by itself, for a tag that forwards has one `>`, and
nothing is removed from it.
-/

namespace ScopedMarkup

namespace Text

/-- Where a text does not begin, not even with what follows, nothing is added. -/
theorem insertAfterFirst_append (addition : List Char) {wanted front behind : List Char}
    (absent : ∀ inside, inside <:+ front → inside ≠ [] → ¬wanted <+: inside ++ behind) :
    insertAfterFirst wanted addition (front ++ behind) =
      front ++ insertAfterFirst wanted addition behind := by
  induction front with
  | nil => rfl
  | cons c rest inductionHypothesis =>
    have here : wanted.isPrefixOf (c :: (rest ++ behind)) = false := by
      rw [Bool.eq_false_iff]
      intro starts
      exact absent (c :: rest) List.suffix_rfl (List.cons_ne_nil _ _)
        (List.isPrefixOf_iff_prefix.mp starts)
    rw [List.cons_append, insertAfterFirst, here, if_neg Bool.false_ne_true,
      inductionHypothesis fun inside final => absent inside (final.trans (List.suffix_cons c rest))]
    rfl

/-- A text without a character does not begin before it and end behind it. -/
theorem prefix_of_absent {wanted first second : List Char} {c : Char} (absent : c ∉ wanted)
    (initial : wanted <+: first ++ c :: second) : wanted <+: first := by
  rcases List.prefix_or_prefix_of_prefix initial (List.prefix_append first _) with early | longer
  · exact early
  · obtain ⟨rest, rfl⟩ := longer
    cases rest with
    | nil => simp
    | cons next others =>
      have tails := (List.prefix_append_right_inj first).mp initial
      have same : next = c := (List.cons_prefix_cons.mp tails).1
      rw [same] at absent
      simp at absent

end Text

/-- No flat spread is read before a text if none is read before a longer one. -/
theorem CssSpread.silent_of_append {text behind more : List Char}
    (silent : pattern.Silent text (behind ++ more)) : pattern.Silent text behind := by
  intro inside final present
  cases read : pattern.read? (inside ++ behind) with
  | none => rfl
  | some spread =>
    have longer := read_append read more
    rw [List.append_assoc] at longer
    exact absurd (longer.symm.trans (silent inside final present)) (by simp)

/-- A pass over tags of another kind keeps a lone text. -/
theorem Lone.forwardScope_other {kind other : TagKind} {text : List Char} (lone : Lone kind text)
    (different : other ≠ kind) : forwardScope other text = ⟨text, 0⟩ := by
  apply forwardScope_of_read_none lone.free
  cases read : ForwardingTag.read? other text with
  | none => rfl
  | some hit =>
    have start := ForwardingTag.starts_of_read read
    rw [TagKind.starts_other lone.starts different] at start
    exact absurd start Bool.false_ne_true

namespace Tag

/-- The text of a tag behind its head once the flat spreads are removed. -/
def keptRest (tag : Tag) : List Char := Piece.remaining Piece.isFlat [] tag.body ++ tag.ending.text

/-- Whether a scoped tag is read as a flat tag of its kind. -/
def isForwarded (ids : InstanceIds) (tag : Tag) : Bool :=
  (ForwardingTag.read? tag.kind (tag.scopedText ids)).isSome

/-- A tag as forwarding writes it. -/
def forwardedText (ids : InstanceIds) (tag : Tag) : List Char :=
  tag.head ++ tag.binding ids (tag.isForwarded ids) ++ tag.keptRest

/-- A tag that starts no other, has no faults, and keeps its name. -/
structure Orderly (tag : Tag) : Prop where
  /-- The tag is settled. -/
  settled : tag.Settled
  /-- No other tag starts in it. -/
  single : Text.holdsTagStart (tag.text.drop 1) = false
  /-- The tag is not exempt. -/
  unexempt : tag.isExempt = false
  /-- The tag has no faults. -/
  accepted : tag.Accepted
  /-- Its name is not torn. -/
  untorn : ¬tag.TearsName

variable {tag : Tag} {ids : InstanceIds}

/-- Flat spreads are read in a tag without faults at the pieces that are flat spreads. -/
theorem Accepted.quiet (accepted : tag.Accepted) : Piece.Quiet tag.body tag.ending.text := by
  intro front piece back cutAt kept inside final present
  cases read : CssSpread.pattern.read? (inside ++ (back.flatMap Piece.text ++ tag.ending.text)) with
  | none => rfl
  | some spread =>
    obtain ⟨rfl, forwards⟩ := accepted.pieces front piece back cutAt inside final present
      (Option.isSome_iff_exists.mpr ⟨spread, read⟩)
    obtain ⟨covering, same, _⟩ := Piece.forwards_iff.mp forwards
    rw [Piece.isFlat_of_read same read] at kept
    exact absurd kept (by decide)

/-- A flat spread among the pieces forwards the scope. -/
theorem Accepted.forwards_of_flat (accepted : tag.Accepted) {piece : Piece}
    (member : piece ∈ tag.body) (flat : piece.isFlat = true) : piece.forwards = true := by
  obtain ⟨front, back, cutAt⟩ := List.append_of_mem member
  exact (accepted.pieces front piece back cutAt piece.text List.suffix_rfl (Piece.text_ne_nil piece)
    (Piece.isSome_read_of_isFlat flat _)).2

/-- A settled tag that is not exempt and gets no attribute goes on with a slash. -/
theorem Settled.slash (settled : tag.Settled) (unexempt : tag.isExempt = false)
    (bare : tag.isScoped = false) : ∃ others, tag.body = .plain '/' :: others := by
  have unopened : Opening.endsBefore tag.rest = false := by
    simpa [isScoped, unexempt, isOpening] using bare
  cases body : tag.body with
  | nil =>
    rw [rest, body, settled.closed] at unopened
    exact absurd unopened (by decide)
  | cons piece others =>
    obtain ⟨c, rfl, ended⟩ := settled.nameEnds piece others body
    rw [rest, body] at unopened
    have notOpening : Text.isScriptBlank c = false ∧ c ≠ '>' := by
      simpa [Opening.endsBefore, Piece.text] using unopened
    have slash : c = '/' := by
      simpa [isNameChar, notOpening.1, notOpening.2] using ended
    exact ⟨others, by rw [slash]⟩

/-- Removals do not reach into the head, which ends with the attribute or a slash. -/
theorem Settled.remaining_head (settled : tag.Settled) (unexempt : tag.isExempt = false)
    (forwarding : Bool) :
    Piece.remaining Piece.isFlat (tag.head ++ tag.binding ids forwarding) tag.body =
      tag.head ++ tag.binding ids forwarding ++ Piece.remaining Piece.isFlat [] tag.body := by
  by_cases gets : tag.isScoped = true
  · have ends := scopedHead_getLast gets ids forwarding
    have kept := Piece.remaining_append Piece.isFlat ends (by decide) [] tag.body
    rwa [List.append_nil] at kept
  · obtain ⟨others, body⟩ := settled.slash unexempt (by simpa using gets)
    have plain : (Piece.plain '/').isFlat = false := by decide
    have ends : (tag.head ++ ['/']).getLast? = some '/' := by
      rw [List.getLast?_append]
      rfl
    have kept := Piece.remaining_append Piece.isFlat ends (by decide) [] others
    have slashEnds : ['/'].getLast? = some '/' := rfl
    have slash := Piece.remaining_append Piece.isFlat slashEnds (by decide) [] others
    rw [List.append_nil] at kept slash
    rw [binding, if_neg gets, List.append_nil, body, Piece.remaining, plain,
      if_neg Bool.false_ne_true, Piece.remaining, plain, if_neg Bool.false_ne_true]
    show Piece.remaining Piece.isFlat (tag.head ++ ['/']) others =
      tag.head ++ Piece.remaining Piece.isFlat ['/'] others
    rw [kept, slash, List.append_assoc]

/-- Without flat spreads everything behind the head is kept. -/
theorem keptRest_eq_rest (none : ∀ piece ∈ tag.body, piece.isFlat = false) :
    tag.keptRest = tag.rest := by
  have each : ∀ (pieces : List Piece) (pending : List Char),
      (∀ piece ∈ pieces, piece.isFlat = false) →
        Piece.remaining Piece.isFlat pending pieces = pending ++ pieces.flatMap Piece.text := by
    intro pieces
    induction pieces with
    | nil =>
      intro pending _
      simp [Piece.remaining]
    | cons piece others inductionHypothesis =>
      intro pending kept
      rw [Piece.remaining, kept piece List.mem_cons_self, if_neg Bool.false_ne_true,
        inductionHypothesis _ fun other member => kept other (List.mem_cons_of_mem _ member),
        List.flatMap_cons, List.append_assoc]
  rw [keptRest, each tag.body [] none, rest, List.nil_append]

/-- The characters behind the last removal are silent: nothing is read at `>`. -/
theorem Settled.silent_ending (settled : tag.Settled) :
    CssSpread.pattern.Silent tag.ending.text [] := by
  rw [settled.closed]
  have shut : CssSpread.blocked ['>'] = true := by decide
  exact CssSpread.silent_of_blocked shut []

/-- What remains of a tag is told piece by piece behind a text that is sealed: the head with its
attribute, or with its slash where it gets none. -/
theorem Orderly.exists_pending (orderly : tag.Orderly) {forwarding : Bool}
    (silent : CssSpread.pattern.Silent (tag.head ++ tag.binding ids forwarding) tag.rest) :
    ∃ pending pieces, (∀ piece ∈ pieces, piece.Settled) ∧ Piece.Quiet pieces tag.ending.text ∧
      CssSpread.Sealed pending ∧
      CssSpread.pattern.Silent pending (pieces.flatMap Piece.text ++ tag.ending.text) ∧
      tag.head ++ tag.binding ids forwarding ++ tag.rest =
        pending ++ (pieces.flatMap Piece.text ++ tag.ending.text) ∧
      tag.head ++ tag.binding ids forwarding ++ tag.keptRest =
        Piece.remaining Piece.isFlat pending pieces ++ tag.ending.text := by
  have settled := orderly.settled
  have quiet := orderly.accepted.quiet
  have whole : tag.head ++ tag.binding ids forwarding ++ tag.keptRest =
      Piece.remaining Piece.isFlat (tag.head ++ tag.binding ids forwarding) tag.body ++
        tag.ending.text := by
    rw [settled.remaining_head orderly.unexempt forwarding, keptRest, List.append_assoc,
      List.append_assoc, List.append_assoc]
  by_cases gets : tag.isScoped = true
  · have ends := scopedHead_getLast gets ids forwarding
    exact ⟨_, tag.body, settled.pieces, quiet,
      CssSpread.sealed_of_getLast ends (by decide) (by decide), silent, rfl, whole⟩
  · obtain ⟨others, body⟩ := settled.slash orderly.unexempt (by simpa using gets)
    have plain : (Piece.plain '/').isFlat = false := by decide
    have ends : (tag.head ++ tag.binding ids forwarding ++ ['/']).getLast? = some '/' := by
      rw [List.getLast?_append]
      rfl
    have slash := quiet [] (.plain '/') others body plain
    rw [rest, body, List.flatMap_cons, List.append_assoc] at silent
    refine ⟨_, others, fun piece member => settled.pieces piece (by rw [body]; simp [member]),
      (body ▸ quiet).of_cons, CssSpread.sealed_of_getLast ends (by decide) (by decide),
      silent.append slash, ?_, ?_⟩
    · simp [rest, body, Piece.text]
    · rw [whole, body, Piece.remaining, plain, if_neg Bool.false_ne_true]
      rfl

/-- What remains of a tag holds no flat spread if its head holds none. -/
theorem Orderly.silent_kept (orderly : tag.Orderly) {forwarding : Bool}
    (silent : CssSpread.pattern.Silent (tag.head ++ tag.binding ids forwarding) tag.rest) :
    CssSpread.pattern.Silent (tag.head ++ tag.binding ids forwarding ++ tag.keptRest) [] := by
  obtain ⟨pending, pieces, settled, quiet, shut, unread, _, kept⟩ := orderly.exists_pending silent
  rw [kept]
  exact Piece.silent_remaining settled quiet orderly.settled.silent_ending pending shut unread

/-- No flat spread is read in the head of a forwarding tag, whatever part of the tag follows. -/
theorem Orderly.silent_front (orderly : tag.Orderly) (avoids : ids.Avoids ['<', '>', '{', '}'])
    {shown behind : List Char} (spelled : tag.rest = shown ++ behind) :
    CssSpread.pattern.Silent (tag.head ++ tag.binding ids true) shown := by
  by_cases gets : tag.isScoped = true
  · exact (orderly.settled.silent_forwarding orderly.accepted gets orderly.untorn ids shown).append
      (CssSpread.silent_of_blocked (blocked_binding avoids true) shown)
  · have silent := orderly.accepted.head
    rw [spelled] at silent
    rw [binding, if_neg gets, List.append_nil]
    exact CssSpread.silent_of_append silent

/-- The attribute's opening does not stand in a tag without faults. -/
theorem Accepted.opening_absent (accepted : tag.Accepted) {part : List Char} (occurs : part <:+: tag.text) :
    ¬tag.kind.attributeOpening.toList <:+: part := by
  intro within
  have name : (tag.kind.attributeName ++ "=").toList <:+: tag.kind.attributeOpening.toList := by
    rw [TagKind.attributeOpening]
    refine ⟨[], "\x7b`".toList, ?_⟩
    simp
  have bears := (Text.contains_iff _ _).mpr (name.trans (within.trans occurs))
  have bare := accepted.bare
  rw [bearsAttribute, bears] at bare
  simp at bare

/-- The parent's ids go into the attribute of the tag itself. -/
theorem Accepted.insertAfterFirst (accepted : tag.Accepted) {shown behind : List Char}
    (spelled : tag.rest = shown ++ behind) :
    Text.insertAfterFirst tag.kind.attributeOpening.toList inheritedIdsEntry.toList
        (tag.head ++ tag.binding ids false ++ shown) =
      tag.head ++ tag.binding ids true ++ shown := by
  have whole : tag.head ++ shown ++ behind = tag.text := by
    rw [text_eq_head_append, spelled, List.append_assoc]
  by_cases gets : tag.isScoped = true
  · have absent : ∀ inside, inside <:+ tag.head ++ [' '] → inside ≠ [] →
        ¬tag.kind.attributeOpening.toList <+:
          inside ++ (tag.kind.attributeOpening.toList ++ (tag.ownEntries ids ++ shown)) := by
      intro inside final present initial
      have unblank : ' ' ∉ tag.kind.attributeOpening.toList := by
        cases tag.kind <;> decide
      rcases Text.suffix_append_iff.mp final with within | ⟨inner, rfl, early⟩
      · rcases List.suffix_cons_iff.mp within with rfl | nothing
        · have first : tag.kind.attributeOpening.toList <+: [] :=
            Text.prefix_of_absent unblank initial
          cases kind : tag.kind <;> rw [kind] at first <;> exact absurd first (by decide)
        · exact absurd (List.suffix_nil.mp nothing) present
      · rw [List.append_assoc] at initial
        have occurs : inner <:+: tag.text := by
          rw [text_eq_head_append]
          exact early.isInfix.trans (List.prefix_append _ _).isInfix
        exact accepted.opening_absent occurs
          (Text.prefix_of_absent unblank initial).isInfix
    have present : tag.kind.attributeOpening.toList ≠ [] := by
      cases tag.kind <;> decide
    have inserted := Text.insertAfterFirst_append inheritedIdsEntry.toList absent
    rw [Text.insertAfterFirst_of_prefix _ _ _ present] at inserted
    simpa [binding, gets, scopeAttribute] using inserted
  · have absent : Text.contains tag.kind.attributeOpening.toList (tag.head ++ shown) = false := by
      rw [Bool.eq_false_iff]
      intro occurs
      refine accepted.opening_absent ?_ ((Text.contains_iff _ _).mp occurs)
      rw [← whole]
      exact (List.prefix_append _ _).isInfix
    simpa [binding, gets] using Text.insertAfterFirst_of_absent _ inheritedIdsEntry.toList _ absent

/-- A flat tag that is read in a scoped tag begins with the head and ends in what follows. -/
theorem Settled.hit_shape (settled : tag.Settled) (avoids : ids.Avoids ['<', '>', '{', '}'])
    {hit : ForwardingTag} (read : ForwardingTag.read? tag.kind (tag.scopedText ids) = some hit) :
    ∃ shown behind, tag.rest = shown ++ behind ∧
      hit.text = tag.head ++ tag.binding ids false ++ shown := by
  obtain ⟨behind, joined⟩ := (ForwardingTag.text_of_read read).2
  have free := settled.angle_not_mem_front avoids false
  rcases List.append_eq_append_iff.mp joined with ⟨left, whole, _⟩ | ⟨left, whole, rest⟩
  · refine absurd ?_ free
    rw [whole]
    exact List.mem_append_left _ (List.mem_of_getLast? hit.text_getLast)
  · exact ⟨left, behind, rest, whole⟩

/-- A tag that holds a flat spread is read as a flat tag, and wholly. -/
theorem Orderly.read_of_flat (orderly : tag.Orderly) (avoids : ids.Avoids ['<', '>', '{', '}'])
    {piece : Piece} (member : piece ∈ tag.body) (flat : piece.isFlat = true) :
    ∃ hit, ForwardingTag.read? tag.kind (tag.scopedText ids) = some hit ∧
      hit.text = tag.scopedText ids := by
  have settled := orderly.settled
  obtain ⟨front, back, cutAt⟩ := List.append_of_mem member
  obtain ⟨spread, read⟩ := Option.isSome_iff_exists.mp flat
  have free : '>' ∉ tag.head ++ tag.binding ids false ++ tag.body.flatMap Piece.text := by
    have angles := orderly.accepted.angles
      (forwardsScope_iff.mpr ⟨piece, member, orderly.accepted.forwards_of_flat member flat⟩)
    rw [List.mem_append, not_or] at angles
    simp only [List.mem_append, not_or]
    exact ⟨⟨angles.1, (angle_not_mem_binding avoids false).2⟩, angles.2⟩
  have whole : tag.scopedText ids =
      (tag.head ++ tag.binding ids false ++ tag.body.flatMap Piece.text) ++ ['>'] := by
    rw [scopedText, rest, settled.closed, List.append_assoc, List.append_assoc, List.append_assoc]
    rfl
  have around : tag.scopedText ids = (tag.head ++ tag.binding ids false ++ front.flatMap Piece.text) ++
      (piece.text ++ (back.flatMap Piece.text ++ ['>'])) := by
    rw [whole, cutAt]
    simp
  have starts : tag.kind.starts (tag.scopedText ids) = true := by
    rw [scopedText, List.append_assoc]
    exact settled.starts _
  have freeFront : '>' ∉ tag.head ++ tag.binding ids false ++ front.flatMap Piece.text := by
    intro inFront
    refine free ?_
    rw [cutAt, List.flatMap_append, ← List.append_assoc]
    exact List.mem_append_left _ inFront
  rw [around] at starts
  have shorter := (CssSpread.text_of_read read).2.length_le
  have found := ForwardingTag.read_isSome starts freeFront
    (CssSpread.read_append read (back.flatMap Piece.text ++ ['>']))
    (by
      rw [List.drop_append_of_le_length shorter]
      simp)
  rw [← around] at found
  obtain ⟨hit, read⟩ := Option.isSome_iff_exists.mp found
  refine ⟨hit, read, ?_⟩
  rw [whole] at read ⊢
  exact ForwardingTag.text_eq_of_read free read

/-- A flat tag that is read in a scoped tag is written with the parent's ids in the attribute
and without the flat spreads. -/
theorem Orderly.merged_append (orderly : tag.Orderly) (avoids : ids.Avoids ['<', '>', '{', '}'])
    {hit : ForwardingTag} {behind : List Char}
    (read : ForwardingTag.read? tag.kind (tag.scopedText ids) = some hit)
    (joined : tag.scopedText ids = hit.text ++ behind) :
    hit.merged tag.kind ++ behind = tag.head ++ tag.binding ids true ++ tag.keptRest := by
  have settled := orderly.settled
  obtain ⟨shown, behind', spelled, hitText⟩ := settled.hit_shape avoids read
  have same : behind = behind' := by
    rw [hitText, scopedText, spelled, ← List.append_assoc] at joined
    exact (List.append_cancel_left joined).symm
  subst same
  rw [ForwardingTag.merged, hitText, orderly.accepted.insertAfterFirst spelled]
  by_cases holds : ∃ piece ∈ tag.body, piece.isFlat = true
  · obtain ⟨piece, member, flat⟩ := holds
    obtain ⟨other, readOther, wholly⟩ := orderly.read_of_flat avoids member flat
    obtain rfl : hit = other := Option.some.inj (read.symm.trans readOther)
    have used : behind = [] := by
      rw [wholly] at joined
      exact List.append_right_eq_self.mp joined.symm
    subst used
    have silent := orderly.silent_front avoids spelled
    rw [List.append_nil] at spelled
    rw [← spelled, rest] at silent ⊢
    rw [List.append_nil, Piece.withoutSpreads_eq_remaining settled.pieces orderly.accepted.quiet
      settled.silent_ending _ silent, settled.remaining_head orderly.unexempt true, keptRest,
      List.append_assoc]
  · have none : ∀ piece ∈ tag.body, piece.isFlat = false := by
      intro piece member
      rw [Bool.eq_false_iff]
      exact fun flat => holds ⟨piece, member, flat⟩
    have silentFront := orderly.silent_front avoids (List.append_nil tag.rest).symm
    have silent := orderly.silent_kept silentFront
    rw [keptRest_eq_rest none] at silent ⊢
    rw [spelled, ← List.append_assoc] at silent ⊢
    have silentShown : CssSpread.pattern.Silent (tag.head ++ tag.binding ids true ++ shown) [] :=
      CssSpread.silent_of_append silent.front
    rw [withoutSpreads_of_silent silentShown]

/-- A scoped tag starts no other tag. -/
theorem Orderly.lone (orderly : tag.Orderly) (avoids : ids.Avoids ['<', '>', '{', '}']) :
    Lone tag.kind (tag.scopedText ids) :=
  orderly.settled.lone_scopedText orderly.single (angle_not_mem_binding avoids false).1

/-- What the pass over its own kind makes of a scoped tag. -/
theorem Orderly.forwardScope_own (orderly : tag.Orderly) (avoids : ids.Avoids ['<', '>', '{', '}']) :
    forwardScope tag.kind (tag.scopedText ids) =
      ⟨tag.forwardedText ids, if tag.isForwarded ids then 1 else 0⟩ := by
  have single := (orderly.lone avoids).free
  cases read : ForwardingTag.read? tag.kind (tag.scopedText ids) with
  | none =>
    have unread : tag.isForwarded ids = false := by
      rw [isForwarded, read]
      rfl
    have none : ∀ piece ∈ tag.body, piece.isFlat = false := by
      intro piece member
      rw [Bool.eq_false_iff]
      intro flat
      obtain ⟨hit, readFlat, _⟩ := orderly.read_of_flat avoids member flat
      simp [read] at readFlat
    rw [forwardScope_of_read_none single read, unread, forwardedText, unread, keptRest_eq_rest none]
    rfl
  | some hit =>
    have isRead : tag.isForwarded ids = true := by
      rw [isForwarded, read]
      rfl
    obtain ⟨behind, spelled⟩ := ForwardingTag.eq_text_append_of_read read
    rw [forwardScope_of_read single read spelled, orderly.merged_append avoids read spelled, isRead,
      forwardedText, isRead]
    rfl

/-- No flat spread is read in the head of an element, whether it forwards or not. -/
theorem Orderly.silent_front_element (orderly : tag.Orderly)
    (avoids : ids.Avoids ['<', '>', '{', '}']) (element : tag.kind = .element) (forwarding : Bool) :
    CssSpread.pattern.Silent (tag.head ++ tag.binding ids forwarding) tag.rest := by
  cases forwarding with
  | true => exact orderly.silent_front avoids (List.append_nil _).symm
  | false =>
    by_cases gets : tag.isScoped = true
    · exact (orderly.settled.silent_element orderly.accepted gets orderly.untorn element ids
        tag.rest).append (CssSpread.silent_of_blocked (blocked_binding avoids false) tag.rest)
    · rw [binding, if_neg gets, List.append_nil]
      exact orderly.accepted.head

/-- A tag as the pass over elements leaves it. -/
def elementForwarded (ids : InstanceIds) (tag : Tag) : List Char :=
  (forwardScope .element (tag.scopedText ids)).text

/-- The pass over elements writes the elements. -/
theorem Orderly.elementForwarded_eq (orderly : tag.Orderly)
    (avoids : ids.Avoids ['<', '>', '{', '}']) : tag.elementForwarded ids =
      if tag.kind = .element then tag.forwardedText ids else tag.scopedText ids := by
  by_cases element : tag.kind = .element
  · have own := orderly.forwardScope_own avoids
    rw [element] at own
    rw [elementForwarded, own, if_pos element]
  · rw [elementForwarded, (orderly.lone avoids).forwardScope_other (Ne.symm element),
      if_neg element]

/-- The pass over components writes the components and leaves the elements as they are. -/
theorem Orderly.forwardScope_component (orderly : tag.Orderly)
    (avoids : ids.Avoids ['<', '>', '{', '}']) :
    forwardScope .component (tag.elementForwarded ids) =
      ⟨tag.forwardedText ids, if tag.kind = .component ∧ tag.isForwarded ids = true then 1 else 0⟩ := by
  rw [orderly.elementForwarded_eq avoids]
  cases kind : tag.kind with
  | element =>
    have silent := orderly.silent_kept
      (orderly.silent_front_element avoids kind (tag.isForwarded ids))
    rw [if_pos rfl, @forwardScope_of_silent .component (tag.forwardedText ids) silent]
    simp
  | component =>
    have own := orderly.forwardScope_own avoids
    rw [kind] at own
    rw [if_neg (by simp), own]
    simp

/-- The passes count a tag that is read as a flat tag, once. -/
theorem Orderly.places (orderly : tag.Orderly) (avoids : ids.Avoids ['<', '>', '{', '}']) :
    (forwardScope .element (tag.scopedText ids)).places +
      (forwardScope .component (tag.elementForwarded ids)).places =
        if tag.isForwarded ids then 1 else 0 := by
  rw [orderly.forwardScope_component avoids]
  cases kind : tag.kind with
  | element =>
    have own := orderly.forwardScope_own avoids
    rw [kind] at own
    rw [own]
    simp
  | component =>
    have different : TagKind.element ≠ tag.kind := by
      rw [kind]
      decide
    rw [(orderly.lone avoids).forwardScope_other different]
    simp

end Tag

/-- The tags of a source without diagnostics are orderly unless they are exempt or torn. -/
theorem orderly_of_diagnose {ids : InstanceIds} {file : String} {source : List Char}
    (accepted : diagnose ids file source = []) {found : Located Tag}
    (scanned : found ∈ scanTags source) (settled : found.value.Settled)
    (single : Text.holdsTagStart (found.value.text.drop 1) = false)
    (unexempt : found.value.isExempt = false) (untorn : ¬found.value.TearsName) :
    found.value.Orderly where
  settled := settled
  single := single
  unexempt := unexempt
  accepted := Tag.accepted_of_faults (faults_of_diagnose accepted found scanned) unexempt settled
  untorn := untorn

end ScopedMarkup
