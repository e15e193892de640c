import Mathlib.Data.List.Induction
import ScopedMarkup.Proofs.Passes

/-!
# Resolved tags

What the passes write for a tag is a tag again. Its pieces are those of the attribute, namely
a blank, the name, `=`, and a group with a template literal, and behind them the pieces that
were kept, less the blanks before removed ones. Every piece still says by itself where it ends,
provided that no instance id ends the template literal or an interpolation. So a scan of the
result finds these tags, and none of their spreads is new.
-/

namespace ScopedMarkup

namespace Braces

/-- Whether a template literal reads over a text and is where it was behind it. -/
def Transparent (text : List Char) : Prop :=
  ∀ enclosed more, readInner enclosed (.template 0) (text ++ more) =
    keep text (readInner enclosed (.template 0) more)

theorem Transparent.append {first second : List Char} (transparent : Transparent first)
    (transparentBehind : Transparent second) : Transparent (first ++ second) := by
  intro enclosed more
  rw [List.append_assoc, transparent, transparentBehind, keep_keep]

/-- The characters that mean nothing in a template literal or one of its interpolations. -/
def isInert (c : Char) : Bool := c != '\\' && c != '$' && c != '`' && c != '}'

/-- Characters that leave a template literal as it is are read over. -/
theorem readInner_over {interpolations : Nat} {text : List Char}
    (stays : ∀ c ∈ text, c ≠ '\\' ∧ c ≠ '$' ∧
      Context.behindTemplate interpolations c = .template interpolations)
    (enclosed : Nat) (more : List Char) :
    readInner enclosed (.template interpolations) (text ++ more) =
      keep text (readInner enclosed (.template interpolations) more) := by
  induction text with
  | nil => rw [keep_nil, List.nil_append]
  | cons c rest inductionHypothesis =>
    obtain ⟨notEscape, notDollar, context⟩ := stays c List.mem_cons_self
    have later := inductionHypothesis fun other member => stays other (List.mem_cons_of_mem c member)
    rw [List.cons_append, readInner, context, later, keep_keep]
    · rfl
    · exact fun _ _ escape _ => notEscape escape
    · exact fun _ dollar _ => notDollar dollar

/-- Inert text is read over. -/
theorem readInner_inert {text : List Char} (inert : text.all isInert = true)
    (enclosed interpolations : Nat) (more : List Char) :
    readInner enclosed (.template interpolations) (text ++ more) =
      keep text (readInner enclosed (.template interpolations) more) := by
  refine readInner_over (fun c member => ?_) enclosed more
  have here : c ≠ '\\' ∧ c ≠ '$' ∧ c ≠ '`' ∧ c ≠ '}' := by
    simpa [isInert, and_assoc] using List.all_eq_true.mp inert c member
  obtain ⟨notEscape, notDollar, notTick, notBrace⟩ := here
  exact ⟨notEscape, notDollar, by simp [Context.behindTemplate, notTick, notBrace]⟩

/-- Outside interpolations a `}` means nothing either. -/
theorem transparent_of_literal {text : List Char}
    (literal : ∀ c ∈ text, c ≠ '\\' ∧ c ≠ '$' ∧ c ≠ '`') : Transparent text := by
  intro enclosed more
  refine readInner_over (fun c member => ?_) enclosed more
  obtain ⟨notEscape, notDollar, notTick⟩ := literal c member
  refine ⟨notEscape, notDollar, ?_⟩
  simp [Context.behindTemplate, notTick]

theorem transparent_of_inert {text : List Char} (inert : text.all isInert = true) :
    Transparent text :=
  fun enclosed more => readInner_inert inert enclosed 0 more

/-- An interpolation of a variable is read over. -/
theorem transparent_interpolation {variableName : String}
    (inert : variableName.toList.all isInert = true) :
    Transparent (interpolation variableName).toList := by
  intro enclosed more
  have spelled : (interpolation variableName).toList ++ more =
      '$' :: '{' :: (variableName.toList ++ '}' :: more) := by
    simp [interpolation, String.toList_append]
  have closing : readInner enclosed (.template 1) ('}' :: more) =
      keep ['}'] (readInner enclosed (.template 0) more) := by
    rw [readInner]
    · rfl
    · exact fun _ _ escape _ => absurd escape (by decide)
    · exact fun _ dollar _ => absurd dollar (by decide)
  have joined : ['$', '{'] ++ variableName.toList ++ ['}'] = (interpolation variableName).toList := by
    simp [interpolation, String.toList_append]
  rw [spelled, readInner, readInner_inert inert, closing, keep_keep, keep_keep, joined]

/-- A template literal of transparent text is a group, whatever stands behind it. -/
theorem group_of_transparent {text : List Char} (transparent : Transparent text)
    (more : List Char) :
    group? ('{' :: ('`' :: text ++ ['`']) ++ '}' :: more) = some ('`' :: text ++ ['`'], more) := by
  have spelled : '{' :: ('`' :: text ++ ['`']) ++ '}' :: more =
      '{' :: '`' :: (text ++ '`' :: '}' :: more) := by
    simp
  have opening : ∀ rest, readInner 0 .code ('`' :: rest) =
      keep ['`'] (readInner 0 (.template 0) rest) := fun _ => rfl
  have closing : readInner 0 (.template 0) ('`' :: '}' :: more) = some (['`'], more) := rfl
  rw [spelled, group?, opening, transparent, closing]
  rfl

end Braces

namespace Piece

/-- Whether a piece is a single blank. -/
def isBlank : Piece → Bool
  | plain c => Text.isUnicodeBlank c
  | _ => false

/-- Pieces without the blanks at their end. -/
def trimmed (pieces : List Piece) : List Piece := (pieces.reverse.dropWhile isBlank).reverse

/-- The pieces that remain when some are removed with the blanks directly before them. -/
def kept (removed : Piece → Bool) : (pending : List Piece) → List Piece → List Piece
  | pending, [] => pending
  | pending, piece :: rest =>
    if removed piece then trimmed pending ++ kept removed [] rest
    else kept removed (pending ++ [piece]) rest

theorem trimmed_append (front : List Piece) (piece : Piece) :
    trimmed (front ++ [piece]) = if piece.isBlank then trimmed front else front ++ [piece] := by
  rw [trimmed, List.reverse_append, List.reverse_singleton, List.singleton_append,
    List.dropWhile_cons]
  split
  · rfl
  · simp

/-- A settled piece that is no blank ends with none. -/
theorem Settled.text_getLast {piece : Piece} (settled : piece.Settled)
    (solid : piece.isBlank = false) :
    ∃ c, piece.text.getLast? = some c ∧ Text.isUnicodeBlank c = false := by
  cases piece with
  | plain c => exact ⟨c, rfl, solid⟩
  | quoted quote body closed =>
    obtain ⟨quoteKind, _, rfl⟩ := settled
    refine ⟨quote, ?_, ?_⟩
    · rw [text, if_pos rfl, List.getLast?_append]
      rfl
    · rcases quoteKind with rfl | rfl <;> decide
  | group inner =>
    refine ⟨'}', ?_, by decide⟩
    rw [text, List.getLast?_append]
    rfl

/-- Pieces are trimmed as their text is. -/
theorem flatMap_text_trimmed {pieces : List Piece} (settled : ∀ piece ∈ pieces, piece.Settled) :
    (trimmed pieces).flatMap text = Text.trimEnd (pieces.flatMap text) := by
  induction pieces using List.reverseRecOn with
  | nil => rfl
  | append_singleton front piece inductionHypothesis =>
    have settledFront : ∀ other ∈ front, other.Settled :=
      fun other member => settled other (List.mem_append_left _ member)
    have here := settled piece (List.mem_append_right _ List.mem_cons_self)
    rw [trimmed_append]
    split
    · rename_i blank
      cases piece with
      | plain c =>
        have isBlank : Text.isUnicodeBlank c = true := blank
        rw [inductionHypothesis settledFront]
        simp [Text.trimEnd, text, isBlank]
      | quoted quote body closed => exact absurd blank (by simp [isBlank])
      | group inner => exact absurd blank (by simp [isBlank])
    · rename_i solid
      obtain ⟨c, ends, unblank⟩ := here.text_getLast (by simpa using solid)
      have endsAll : ((front ++ [piece]).flatMap text).getLast? = some c := by
        rw [List.flatMap_append, List.flatMap_singleton, List.getLast?_append, ends]
        rfl
      rw [Text.trimEnd_of_solid endsAll unblank]

/-- The pieces that remain are written as what remains. -/
theorem flatMap_text_kept {pieces : List Piece} (removed : Piece → Bool)
    (settled : ∀ piece ∈ pieces, piece.Settled) {pending : List Piece}
    (settledPending : ∀ piece ∈ pending, piece.Settled) :
    (kept removed pending pieces).flatMap text = remaining removed (pending.flatMap text) pieces := by
  induction pieces generalizing pending with
  | nil => rfl
  | cons piece rest inductionHypothesis =>
    have settledRest : ∀ other ∈ rest, other.Settled :=
      fun other member => settled other (List.mem_cons_of_mem _ member)
    rw [kept, remaining]
    split
    · rw [List.flatMap_append, flatMap_text_trimmed settledPending,
        inductionHypothesis settledRest fun other member => absurd member List.not_mem_nil]
      rfl
    · rw [inductionHypothesis settledRest, List.flatMap_append, List.flatMap_singleton]
      intro other member
      rcases List.mem_append.mp member with early | here
      · exact settledPending other early
      · rw [List.mem_singleton.mp here]
        exact settled piece List.mem_cons_self

/-- What remains are pieces that were there and are not removed. -/
theorem mem_kept {removed : Piece → Bool} {pieces pending : List Piece} {piece : Piece}
    (member : piece ∈ kept removed pending pieces) :
    piece ∈ pending ∨ piece ∈ pieces ∧ removed piece = false := by
  induction pieces generalizing pending with
  | nil => exact Or.inl member
  | cons first rest inductionHypothesis =>
    rw [kept] at member
    split at member
    · rcases List.mem_append.mp member with early | late
      · refine Or.inl (List.mem_reverse.mp ?_)
        exact (List.dropWhile_sublist _).subset (List.mem_reverse.mp early)
      · rcases inductionHypothesis late with impossible | ⟨inRest, unremoved⟩
        · exact absurd impossible List.not_mem_nil
        · exact Or.inr ⟨List.mem_cons_of_mem _ inRest, unremoved⟩
    · rename_i unremovedFirst
      rcases inductionHypothesis member with early | ⟨inRest, unremoved⟩
      · rcases List.mem_append.mp early with inPending | here
        · exact Or.inl inPending
        · rw [List.mem_singleton.mp here]
          exact Or.inr ⟨List.mem_cons_self, by simpa using unremovedFirst⟩
      · exact Or.inr ⟨List.mem_cons_of_mem _ inRest, unremoved⟩

/-- A piece that is neither removed nor blank remains. -/
theorem mem_kept_of_mem {removed : Piece → Bool} {pieces pending : List Piece} {piece : Piece}
    (solid : piece.isBlank = false)
    (member : piece ∈ pending ∨ piece ∈ pieces ∧ removed piece = false) :
    piece ∈ kept removed pending pieces := by
  have inTrimmed : ∀ others, piece ∈ others → piece ∈ trimmed others := by
    intro others
    induction others using List.reverseRecOn with
    | nil => exact id
    | append_singleton front last inductionHypothesis =>
      intro inOthers
      rw [trimmed_append]
      split
      · rename_i blank
        rcases List.mem_append.mp inOthers with early | here
        · exact inductionHypothesis early
        · rw [List.mem_singleton.mp here, blank] at solid
          exact absurd solid (by decide)
      · exact inOthers
  induction pieces generalizing pending with
  | nil =>
    rcases member with early | ⟨impossible, _⟩
    · exact early
    · exact absurd impossible List.not_mem_nil
  | cons first rest inductionHypothesis =>
    rw [kept]
    split
    · rename_i removedFirst
      rcases member with early | ⟨inPieces, unremoved⟩
      · exact List.mem_append_left _ (inTrimmed _ early)
      · refine List.mem_append_right _ (inductionHypothesis (Or.inr ⟨?_, unremoved⟩))
        rcases List.mem_cons.mp inPieces with rfl | later
        · rw [removedFirst] at unremoved
          exact absurd unremoved (by decide)
        · exact later
    · refine inductionHypothesis ?_
      rcases member with early | ⟨inPieces, unremoved⟩
      · exact Or.inl (List.mem_append_left _ early)
      · rcases List.mem_cons.mp inPieces with rfl | later
        · exact Or.inl (List.mem_append_right _ List.mem_cons_self)
        · exact Or.inr ⟨later, unremoved⟩

/-- A piece at the end of those before that is no blank keeps them all. -/
theorem kept_append (removed : Piece → Bool) {last : Piece} (solid : last.isBlank = false)
    (front pending pieces : List Piece) :
    kept removed (front ++ last :: pending) pieces =
      front ++ last :: kept removed pending pieces := by
  have trims : ∀ others, trimmed (front ++ last :: others) = front ++ last :: trimmed others := by
    intro others
    induction others using List.reverseRecOn with
    | nil =>
      rw [trimmed_append, solid]
      rfl
    | append_singleton early piece inductionHypothesis =>
      rw [← List.cons_append, ← List.append_assoc, trimmed_append, trimmed_append,
        inductionHypothesis]
      split
      · rfl
      · simp
  induction pieces generalizing pending with
  | nil => rfl
  | cons piece rest inductionHypothesis =>
    rw [kept, kept, trims, List.append_assoc, List.cons_append, List.append_assoc,
      List.cons_append, inductionHypothesis]
    split <;> rfl

end Piece

/-- Fewer characters are avoided as well. -/
theorem InstanceIds.Avoids.of_subset {ids : InstanceIds} {marks fewer : List Char}
    (avoids : ids.Avoids marks) (fewerMarks : fewer ⊆ marks) : ids.Avoids fewer :=
  fun entry member c inId marked => avoids entry member c inId (fewerMarks marked)

namespace Tag

variable {tag : Tag} {ids : InstanceIds}

/-- The ids that the attribute of a tag lists. -/
def listedIds (ids : InstanceIds) (forwarding : Bool) (tag : Tag) : List Char :=
  (if forwarding then inheritedIdsEntry.toList else []) ++
    match tag.kind with
    | .element => (interpolation runtimeIdVariable).toList
    | .component =>
      ((ids.get? (String.ofList tag.name)).getD "" ++ " " ++ interpolation runtimeIdVariable).toList

/-- The pieces of the attribute that a tag gets, and the blank before it. -/
def attributePieces (ids : InstanceIds) (forwarding : Bool) (tag : Tag) : List Piece :=
  if tag.isScoped then
    (' ' :: (tag.kind.attributeName ++ "=").toList).map Piece.plain ++
      [.group ('`' :: tag.listedIds ids forwarding ++ ['`'])]
  else []

/-- The tag that all passes make of a tag. -/
def resolved (ids : InstanceIds) (tag : Tag) : Tag where
  kind := tag.kind
  name := tag.name
  body := tag.attributePieces ids (tag.isForwarded ids) ++ Piece.kept Piece.isFlat [] tag.body
  ending := tag.ending

theorem flatMap_text_attributePieces (ids : InstanceIds) (forwarding : Bool) (tag : Tag) :
    (tag.attributePieces ids forwarding).flatMap Piece.text = tag.binding ids forwarding := by
  have plain : ∀ text : List Char, (text.map Piece.plain).flatMap Piece.text = text := by
    intro text
    induction text with
    | nil => rfl
    | cons c rest inductionHypothesis =>
      rw [List.map_cons, List.flatMap_cons, inductionHypothesis]
      rfl
  unfold attributePieces binding
  split
  · rw [List.flatMap_append, plain, scopeAttribute, TagKind.attributeOpening, ownEntries, listedIds]
    cases tag.kind <;> simp [Piece.text, attributeClosing, String.toList_append]
  · rfl

/-- The list of ids is read over if no instance id interferes with it. -/
theorem transparent_listedIds (avoids : ids.Avoids ['`', '$', '\\']) (forwarding : Bool) :
    Braces.Transparent (tag.listedIds ids forwarding) := by
  have interpolated : Braces.Transparent (interpolation inheritedIdsVariable).toList ∧
      Braces.Transparent (interpolation runtimeIdVariable).toList :=
    ⟨Braces.transparent_interpolation (by decide), Braces.transparent_interpolation (by decide)⟩
  have blank : Braces.Transparent " ".toList := Braces.transparent_of_inert (by decide)
  refine Braces.Transparent.append ?_ ?_
  · split
    · rw [inheritedIdsEntry, String.toList_append]
      exact interpolated.1.append blank
    · exact Braces.transparent_of_inert rfl
  · split
    · exact interpolated.2
    · rw [String.toList_append, String.toList_append]
      refine (Braces.Transparent.append (Braces.transparent_of_literal ?_) blank).append
        interpolated.2
      intro c member
      have apart := avoids.getD (String.ofList tag.name) c member
      simp only [List.mem_cons, List.not_mem_nil, or_false, not_or] at apart
      exact ⟨apart.2.2, apart.2.1, apart.1⟩

/-- The pieces of an attribute are settled and spread nothing. -/
theorem attributePieces_spec (avoids : ids.Avoids ['`', '$', '\\']) (forwarding : Bool) :
    ∀ piece ∈ tag.attributePieces ids forwarding, piece.Settled ∧ piece.forwards = false := by
  intro piece member
  unfold attributePieces at member
  split at member
  · rcases List.mem_append.mp member with inName | here
    · obtain ⟨c, inText, rfl⟩ := List.mem_map.mp inName
      refine ⟨?_, rfl⟩
      have apart : (' ' :: (tag.kind.attributeName ++ "=").toList).all (fun c =>
          c ≠ '>' ∧ c ≠ '"' ∧ c ≠ '\'' ∧ c ≠ '{') = true := by
        cases tag.kind <;> decide
      have here := List.all_eq_true.mp apart c inText
      rwa [decide_eq_true_eq] at here
    · rw [List.mem_singleton.mp here]
      refine ⟨fun more => Braces.group_of_transparent (transparent_listedIds avoids forwarding) more, ?_⟩
      rfl
  · exact absurd member List.not_mem_nil

/-- The tag that the passes make of a tag is written as they write it. -/
theorem Settled.resolved_text (settled : tag.Settled) (ids : InstanceIds) :
    (tag.resolved ids).text = tag.forwardedText ids := by
  have nothing : ∀ piece ∈ ([] : List Piece), piece.Settled :=
    fun piece member => absurd member List.not_mem_nil
  have remains := Piece.flatMap_text_kept Piece.isFlat settled.pieces nothing
  show tag.head ++ (tag.attributePieces ids (tag.isForwarded ids) ++
    Piece.kept Piece.isFlat [] tag.body).flatMap Piece.text ++ tag.ending.text = _
  rw [List.flatMap_append, flatMap_text_attributePieces, remains, forwardedText, keptRest]
  simp

/-- The tag that the passes make of a tag is settled. -/
theorem Settled.resolved (settled : tag.Settled) (unexempt : tag.isExempt = false)
    (avoids : ids.Avoids ['}', '`', '$', '\\']) : (tag.resolved ids).Settled where
  named := settled.named
  nameEnds := by
    intro piece rest body
    change tag.attributePieces ids (tag.isForwarded ids) ++ Piece.kept Piece.isFlat [] tag.body =
      piece :: rest at body
    by_cases gets : tag.isScoped = true
    · rw [attributePieces, if_pos gets] at body
      exact ⟨' ', (List.cons.inj body).1.symm, by decide⟩
    · obtain ⟨others, slashed⟩ := settled.slash unexempt (by simpa using gets)
      have solid : (Piece.plain '/').isBlank = false := by decide
      have unremoved : (Piece.plain '/').isFlat = false := by decide
      have first := Piece.kept_append Piece.isFlat solid [] [] others
      rw [attributePieces, if_neg gets, slashed, Piece.kept, unremoved, if_neg Bool.false_ne_true,
        List.nil_append, List.nil_append] at body
      rw [List.nil_append] at first
      rw [first] at body
      exact ⟨'/', (List.cons.inj body).1.symm, by decide⟩
  pieces := by
    intro piece member
    rcases List.mem_append.mp member with inAttribute | remains
    · exact (attributePieces_spec (avoids.of_subset (by decide)) _ piece inAttribute).1
    · rcases Piece.mem_kept remains with impossible | ⟨inBody, _⟩
      · exact absurd impossible List.not_mem_nil
      · exact settled.pieces piece inBody
  closed := settled.closed

/-- The tag that the passes make of a tag forwards if a spread that forwards is not flat. -/
theorem resolved_forwardsScope_iff (avoids : ids.Avoids ['}', '`', '$', '\\']) :
    (tag.resolved ids).forwardsScope = true ↔
      ∃ piece ∈ tag.body, piece.forwards = true ∧ piece.isFlat = false := by
  rw [forwardsScope_iff]
  constructor
  · rintro ⟨piece, member, forwards⟩
    rcases List.mem_append.mp member with inAttribute | remains
    · rw [(attributePieces_spec (avoids.of_subset (by decide)) _ piece inAttribute).2] at forwards
      exact absurd forwards (by decide)
    · rcases Piece.mem_kept remains with impossible | ⟨inBody, unremoved⟩
      · exact absurd impossible List.not_mem_nil
      · exact ⟨piece, inBody, forwards, unremoved⟩
  · rintro ⟨piece, inBody, forwards, unremoved⟩
    have solid : piece.isBlank = false := by
      cases piece with
      | plain c => exact absurd forwards (by simp [Piece.forwards, Piece.spread?])
      | quoted quote body closed => rfl
      | group inner => rfl
    exact ⟨piece, List.mem_append_right _
      (Piece.mem_kept_of_mem solid (Or.inr ⟨inBody, unremoved⟩)), forwards⟩

end Tag

end ScopedMarkup
