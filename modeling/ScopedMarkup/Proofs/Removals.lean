import ScopedMarkup.CssTarget.Removal
import ScopedMarkup.Proofs.FlatSpreads
import ScopedMarkup.Proofs.Settled

/-!
# Removal piece by piece

Removal reads a tag as flat text. If flat spreads are read in the tag at the heads of pieces
only, removal takes out exactly these pieces, each with the blanks directly before it. The
balanced group that a removal ends with is then the whole piece, for the braces of a piece
balance by themselves.
-/

namespace ScopedMarkup

namespace Text

/-- Trimming stops at a character that is no blank. -/
theorem trimEnd_append {front : List Char} {c : Char} (ends : front.getLast? = some c)
    (solid : isUnicodeBlank c = false) (back : List Char) :
    trimEnd (front ++ back) = front ++ trimEnd back := by
  have stops : front.reverse.dropWhile isUnicodeBlank = front.reverse := by
    cases spelled : front.reverse with
    | nil => rfl
    | cons first others =>
      have same : first = c := by
        rw [← List.head?_reverse, spelled] at ends
        exact Option.some.inj ends
      rw [List.dropWhile_cons, if_neg (by simp [same, solid])]
  rw [trimEnd, trimEnd, List.reverse_append, List.dropWhile_append]
  split
  · rename_i used
    rw [stops, List.isEmpty_iff.mp used, List.reverse_reverse, List.reverse_nil, List.append_nil]
  · rw [List.reverse_append, List.reverse_reverse]

/-- A text that ends with no blank is trimmed already. -/
theorem trimEnd_of_solid {text : List Char} {c : Char} (ends : text.getLast? = some c)
    (solid : isUnicodeBlank c = false) : trimEnd text = text := by
  have trimmed := trimEnd_append ends solid []
  rw [List.append_nil] at trimmed
  rw [trimmed]
  exact List.append_nil text

end Text

namespace Pattern

universe u
variable {α : Type u}

/-- Texts that are silent one after the other are silent joined. -/
theorem Silent.append {pattern : Pattern α} {first second behind : List Char}
    (silent : pattern.Silent first (second ++ behind)) (silentBehind : pattern.Silent second behind) :
    pattern.Silent (first ++ second) behind := by
  intro inside final present
  rcases Text.suffix_append_iff.mp final with within | ⟨inner, rfl, early⟩
  · exact silentBehind inside within present
  · rw [List.append_assoc]
    cases inner with
    | nil =>
      rw [List.nil_append] at present ⊢
      exact silentBehind second List.suffix_rfl present
    | cons c rest => exact silent (c :: rest) early (List.cons_ne_nil c rest)

/-- An initial part of a silent text is silent with the rest of the text behind it. -/
theorem Silent.front {pattern : Pattern α} {first second behind : List Char}
    (silent : pattern.Silent (first ++ second) behind) : pattern.Silent first (second ++ behind) := by
  rintro inside ⟨before, rfl⟩ present
  rw [← List.append_assoc]
  exact silent (inside ++ second) ⟨before, (List.append_assoc ..).symm⟩ (by simp [present])

end Pattern

/-- Removals are made where flat spreads are read. -/
theorem removal_eq_none_iff {input : List Char} :
    removal? input = none ↔ CssSpread.read? input = none := by
  unfold removal?
  cases CssSpread.read? input with
  | none => simp
  | some spread => cases Braces.group? input <;> simp

/-- Something is removed where a flat spread is read. -/
theorem exists_removal_iff {input : List Char} :
    (∃ removed, removal? input = some removed) ↔ ∃ spread, CssSpread.read? input = some spread := by
  rw [← Option.isSome_iff_exists, ← Option.isSome_iff_exists, Option.isSome_iff_ne_none,
    Option.isSome_iff_ne_none]
  exact not_congr removal_eq_none_iff

/-- Nothing is to be removed from a text exactly if no flat spread is read in it. -/
theorem silent_removals_iff {text behind : List Char} :
    removals.Silent text behind ↔ CssSpread.pattern.Silent text behind := by
  constructor
  · intro silent inside final present
    exact removal_eq_none_iff.mp (silent inside final present)
  · intro silent inside final present
    exact removal_eq_none_iff.mpr (silent inside final present)

/-- A text without flat spreads is kept. -/
theorem withoutSpreads_of_silent {text : List Char} (silent : CssSpread.pattern.Silent text []) :
    withoutSpreads text = text := by
  rw [withoutSpreads, removals.split_of_silent (silent_removals_iff.mpr silent)]
  rfl

/-- A removal takes the blanks before it along. -/
theorem withoutSpreads_append {front removed rest : List Char}
    (silent : CssSpread.pattern.Silent front (removed ++ rest))
    (read : removal? (removed ++ rest) = some removed) :
    withoutSpreads (front ++ (removed ++ rest)) = Text.trimEnd front ++ withoutSpreads rest := by
  have first : removals.split (removed ++ rest) = (removals.split rest).precede removed :=
    removals.split_append removed rest read
  rw [withoutSpreads, removals.split_append_of_silent front _ (silent_removals_iff.mpr silent),
    first]
  simp [withoutSpreads, Split.append, Split.precede]

namespace Text

/-- Whether a character behind a brace makes sure that no spread is opened by it: no blank of
either class and no dot. -/
def isStop (c : Char) : Bool := !isScriptBlank c && !isUnicodeBlank c && c != '.'

/-- What trimming takes away is blank. -/
theorem exists_blanks (text : List Char) :
    ∃ blanks, text = trimEnd text ++ blanks ∧ ∀ c ∈ blanks, isUnicodeBlank c = true := by
  refine ⟨(text.reverse.takeWhile isUnicodeBlank).reverse, ?_, ?_⟩
  · rw [trimEnd, ← List.reverse_append, List.takeWhile_append_dropWhile, List.reverse_reverse]
  · intro c member
    exact List.mem_takeWhile_imp (List.mem_reverse.mp member)

end Text

namespace CssSpread

/-- Behind every brace of the text there is a character that stops an opening. -/
def Sealed (text : List Char) : Prop :=
  ∀ inside, '{' :: inside <:+ text → ∃ c ∈ inside, Text.isStop c = true

theorem sealed_nil : Sealed [] :=
  fun _ final => absurd (List.suffix_nil.mp final) (List.cons_ne_nil _ _)

/-- What a sealed text opens it opens by itself. -/
theorem Sealed.opens {text inside behind : List Char} (shut : Sealed text) (final : inside <:+ text)
    (present : inside ≠ []) (opens : Opens (inside ++ behind)) : Opens inside := by
  obtain ⟨first, rest, rfl⟩ := List.exists_cons_of_ne_nil present
  obtain ⟨blanks, more, joined, blank⟩ := opens
  obtain ⟨rfl, behindBrace⟩ := List.cons.inj joined
  obtain ⟨c, member, stops⟩ := shut rest final
  simp only [Text.isStop, Bool.and_eq_true, Bool.not_eq_true', bne_iff_ne] at stops
  have spelled : rest ++ behind = (blanks ++ ['.', '.', '.']) ++ more := by
    refine Eq.trans behindBrace ?_
    simp
  rcases List.append_eq_append_iff.mp spelled with ⟨left, whole, _⟩ | ⟨left, whole, _⟩
  · exfalso
    have early : c ∈ blanks ++ ['.', '.', '.'] := by
      rw [whole]
      exact List.mem_append_left left member
    rcases List.mem_append.mp early with inBlanks | dot
    · rw [blank c inBlanks] at stops
      simp at stops
    · exact stops.2 (by simpa using dot)
  · exact ⟨blanks, left, by rw [whole]; simp, blank⟩

/-- A text that ends with a stop is sealed. -/
theorem sealed_of_getLast {text : List Char} {c : Char} (ends : text.getLast? = some c)
    (stops : Text.isStop c = true) (noBrace : c ≠ '{') : Sealed text := by
  intro inside final
  have last : ('{' :: inside).getLast? = some c := by
    rw [← Text.getLast?_of_suffix final (List.cons_ne_nil _ _)]
    exact ends
  cases inside with
  | nil => exact absurd (Option.some.inj last).symm noBrace
  | cons next others =>
    rw [List.getLast?_cons_cons] at last
    exact ⟨c, List.mem_of_getLast? last, stops⟩

/-- A sealed text stays sealed when a character is added that is no brace. -/
theorem Sealed.concat {text : List Char} (shut : Sealed text) {c : Char} (noBrace : c ≠ '{') :
    Sealed (text ++ [c]) := by
  intro inside final
  rcases Text.suffix_append_iff.mp final with within | ⟨inner, same, early⟩
  · rcases List.suffix_cons_iff.mp within with impossible | nothing
    · exact absurd (List.cons.inj impossible).1.symm noBrace
    · exact absurd (List.suffix_nil.mp nothing) (List.cons_ne_nil _ _)
  · cases inner with
    | nil => exact absurd (List.cons.inj same).1.symm noBrace
    | cons first others =>
      obtain ⟨rfl, rfl⟩ := List.cons.inj same
      obtain ⟨stop, member, stops⟩ := shut others early
      exact ⟨stop, List.mem_append_left _ member, stops⟩

/-- Trimming takes no stop away. -/
theorem Sealed.trimEnd {text : List Char} (shut : Sealed text) : Sealed (Text.trimEnd text) := by
  intro inside final
  obtain ⟨blanks, whole, blank⟩ := Text.exists_blanks text
  have longer : '{' :: (inside ++ blanks) <:+ text := by
    obtain ⟨before, same⟩ := final
    exact ⟨before, by rw [whole, ← same, List.append_assoc, List.cons_append]⟩
  obtain ⟨c, member, stops⟩ := shut _ longer
  rcases List.mem_append.mp member with here | inBlanks
  · exact ⟨c, here, stops⟩
  · simp [Text.isStop, blank c inBlanks] at stops

/-- A spread that is opened in a text, and not closed there, reaches over blanks into a flat
spread behind the text and mentions `cssTarget` by it. -/
theorem read_over {inside blanks : List Char} {spread : CssSpread} (opens : Opens inside)
    (unclosed : '}' ∉ inside ++ blanks) {input : List Char} (read : read? input = some spread) :
    (read? (inside ++ blanks ++ input)).isSome = true := by
  obtain ⟨early, more, rfl, blank⟩ := opens
  obtain ⟨⟨behind, rfl⟩, _, _, mentioned⟩ := read_eq_some_iff.mp read
  refine Option.isSome_iff_exists.mpr ⟨⟨early, more ++ blanks ++
    ('{' :: spread.blanks ++ '.' :: '.' :: '.' :: spread.body)⟩, read_eq_some_iff.mpr
      ⟨⟨behind, by simp [text]⟩, blank, ?_, ?_⟩⟩
  · intro member
    rcases List.mem_append.mp member with before | inSpread
    · refine unclosed ?_
      rcases List.mem_append.mp before with inMore | inBlanks
      · simp [inMore]
      · exact List.mem_append_right _ inBlanks
    · exact brace_not_mem read inSpread
  · obtain ⟨left, right, same⟩ := mentioned
    exact ⟨more ++ blanks ++ ('{' :: spread.blanks ++ '.' :: '.' :: '.' :: left), right, by
      rw [← same]; simp⟩

/-- A spread that is opened before the place of a removed one is closed there. It would have been
read before the removal otherwise, since the removed one mentions `cssTarget` in front of a `}` of
its own. -/
theorem brace_mem_of_silent {gap behind inside : List Char} (silent : pattern.Silent gap behind)
    (removes : (read? behind).isSome = true) (final : inside <:+ Text.trimEnd gap)
    (opens : Opens inside) : '}' ∈ inside := by
  obtain ⟨blanks, whole, blank⟩ := Text.exists_blanks gap
  obtain ⟨other, readRemoved⟩ := Option.isSome_iff_exists.mp removes
  have present : inside ≠ [] := by
    obtain ⟨rest, rfl⟩ := opens.eq_cons
    exact List.cons_ne_nil _ _
  by_contra stillOpen
  have unclosed : '}' ∉ inside ++ blanks := by
    intro member
    rcases List.mem_append.mp member with here | inBlanks
    · exact stillOpen here
    · exact absurd (blank '}' inBlanks) (by decide)
  have overrun := read_over opens unclosed readRemoved
  rw [whole] at silent
  rw [List.append_assoc, show read? _ = none from silent.front inside final present] at overrun
  exact Bool.false_ne_true overrun

/-- A spread that is read over the place of a removed one is not opened before that place: it is
closed there, so it would have been read before the removal. -/
theorem not_opens_of_silent {gap behind inside kept : List Char}
    (silent : pattern.Silent gap behind) (removes : (read? behind).isSome = true)
    (final : inside <:+ Text.trimEnd gap) (present : inside ≠ [])
    (reads : (read? (inside ++ kept)).isSome = true) : ¬Opens inside := by
  intro opens
  have closed := brace_mem_of_silent silent removes final opens
  obtain ⟨spread, read⟩ := Option.isSome_iff_exists.mp reads
  obtain ⟨blanks, whole, _⟩ := Text.exists_blanks gap
  rw [whole] at silent
  have unread := silent.front inside final present
  exact absurd ((read_append (read_of_mem read closed) (blanks ++ behind)).symm.trans unread) (by simp)

end CssSpread

namespace Piece

/-- Whether a piece is a flat spread that mentions `cssTarget`. -/
def isFlat (piece : Piece) : Bool := (CssSpread.read? piece.text).isSome

/-- A piece that is a flat spread is read as one, whatever stands behind it. -/
theorem isSome_read_of_isFlat {piece : Piece} (flat : piece.isFlat = true) (behind : List Char) :
    (CssSpread.read? (piece.text ++ behind)).isSome = true := by
  obtain ⟨spread, read⟩ := Option.isSome_iff_exists.mp flat
  rw [CssSpread.read_append read behind]
  rfl

/-- A settled piece that is a flat spread is removed as a whole. -/
theorem Settled.removal {piece : Piece} (settled : piece.Settled) (flat : piece.isFlat = true)
    (behind : List Char) : removal? (piece.text ++ behind) = some piece.text := by
  obtain ⟨spread, read⟩ := Option.isSome_iff_exists.mp flat
  have longer := CssSpread.read_append read behind
  obtain ⟨rest, spelled⟩ := (CssSpread.opens_of_read read).eq_cons
  cases piece with
  | plain c =>
    obtain ⟨_, _, _, notBrace⟩ := settled
    exact absurd (List.cons.inj spelled).1 notBrace
  | quoted quote body closed =>
    obtain ⟨rfl | rfl, _⟩ := settled <;> exact absurd (List.cons.inj spelled).1 (by decide)
  | group inner =>
    have balanced : Braces.group? ((group inner).text ++ behind) = some (inner, behind) := by
      have whole := settled behind
      rwa [text, List.append_assoc]
    rw [removal?, longer]
    simp only [balanced]
    rfl

/-- The text of pieces without those that `removed` says, and without the blanks directly
before them. `pending` is the text that is kept since the last removal. -/
def remaining (removed : Piece → Bool) : (pending : List Char) → List Piece → List Char
  | pending, [] => pending
  | pending, piece :: rest =>
    if removed piece then Text.trimEnd pending ++ remaining removed [] rest
    else remaining removed (pending ++ piece.text) rest

/-- Flat spreads are read in the pieces that are no flat spreads themselves nowhere, when
`tail` follows. -/
def Quiet (pieces : List Piece) (tail : List Char) : Prop :=
  ∀ front piece back, pieces = front ++ piece :: back → piece.isFlat = false →
    CssSpread.pattern.Silent piece.text (back.flatMap text ++ tail)

theorem Quiet.of_cons {piece : Piece} {rest : List Piece} {tail : List Char}
    (quiet : Quiet (piece :: rest) tail) : Quiet rest tail := by
  intro front other back cutAt
  exact quiet (piece :: front) other back (by rw [cutAt, List.cons_append])

/-- Removal takes the flat spreads out of a row of quiet pieces. -/
theorem withoutSpreads_eq_remaining {pieces : List Piece} {tail : List Char}
    (settled : ∀ piece ∈ pieces, piece.Settled) (quiet : Quiet pieces tail)
    (silentTail : CssSpread.pattern.Silent tail []) (pending : List Char)
    (silent : CssSpread.pattern.Silent pending (pieces.flatMap text ++ tail)) :
    withoutSpreads (pending ++ (pieces.flatMap text ++ tail)) =
      remaining isFlat pending pieces ++ tail := by
  induction pieces generalizing pending with
  | nil =>
    have whole : CssSpread.pattern.Silent (pending ++ tail) [] := by
      refine Pattern.Silent.append ?_ silentTail
      simpa using silent
    simpa [remaining] using withoutSpreads_of_silent whole
  | cons piece rest inductionHypothesis =>
    have settledRest : ∀ other ∈ rest, other.Settled :=
      fun other member => settled other (List.mem_cons_of_mem _ member)
    rw [List.flatMap_cons, List.append_assoc] at silent ⊢
    by_cases flat : piece.isFlat = true
    · have read := (settled piece List.mem_cons_self).removal flat (rest.flatMap text ++ tail)
      have later := inductionHypothesis settledRest quiet.of_cons [] (Pattern.silent_nil _ _)
      rw [List.nil_append] at later
      rw [withoutSpreads_append silent read, later, remaining, if_pos flat, List.append_assoc]
    · have kept : piece.isFlat = false := Bool.eq_false_iff.mpr flat
      have here := quiet [] piece rest rfl kept
      rw [← List.append_assoc, inductionHypothesis settledRest quiet.of_cons _ (silent.append here),
        remaining, if_neg flat]

/-- What is kept is decided piece by piece. -/
theorem remaining_congr {removed other : Piece → Bool} {pieces : List Piece}
    (same : ∀ piece ∈ pieces, removed piece = other piece) (pending : List Char) :
    remaining removed pending pieces = remaining other pending pieces := by
  induction pieces generalizing pending with
  | nil => rfl
  | cons piece rest inductionHypothesis =>
    have later := inductionHypothesis fun piece' member => same piece' (List.mem_cons_of_mem _ member)
    rw [remaining, remaining, same piece List.mem_cons_self, later, later]

/-- Text that ends with no blank stays in front of what is kept. -/
theorem remaining_append (removed : Piece → Bool) {front : List Char} {c : Char}
    (ends : front.getLast? = some c) (solid : Text.isUnicodeBlank c = false)
    (pending : List Char) (pieces : List Piece) :
    remaining removed (front ++ pending) pieces = front ++ remaining removed pending pieces := by
  induction pieces generalizing pending with
  | nil => rfl
  | cons piece rest inductionHypothesis =>
    rw [remaining, remaining, Text.trimEnd_append ends solid, List.append_assoc, List.append_assoc,
      inductionHypothesis]
    split <;> rfl

/-- Settled pieces keep a text sealed. -/
theorem Settled.sealed {piece : Piece} (settled : piece.Settled) {text : List Char}
    (shut : CssSpread.Sealed text) : CssSpread.Sealed (text ++ piece.text) := by
  cases piece with
  | plain c => exact shut.concat settled.2.2.2
  | quoted quote body closed =>
    obtain ⟨quoteKind, _, rfl⟩ := settled
    have ends : (text ++ (quoted quote body true).text).getLast? = some quote := by
      rw [Piece.text, if_pos rfl, ← List.append_assoc, List.getLast?_append]
      rfl
    rcases quoteKind with rfl | rfl
    · exact CssSpread.sealed_of_getLast ends (by decide) (by decide)
    · exact CssSpread.sealed_of_getLast ends (by decide) (by decide)
  | group inner =>
    have ends : (text ++ (group inner).text).getLast? = some '}' := by
      rw [Piece.text, ← List.append_assoc, List.getLast?_append]
      rfl
    exact CssSpread.sealed_of_getLast ends (by decide) (by decide)

/-- Without a removed piece nothing is read in what stands before it, whatever follows. -/
theorem silent_trimEnd {piece : Piece} (flat : piece.isFlat = true) {pending rest : List Char}
    (shut : CssSpread.Sealed pending)
    (silent : CssSpread.pattern.Silent pending (piece.text ++ rest)) (kept : List Char) :
    CssSpread.pattern.Silent (Text.trimEnd pending) kept := by
  have removes := isSome_read_of_isFlat flat rest
  intro inside final present
  cases read : CssSpread.pattern.read? (inside ++ kept) with
  | none => rfl
  | some spread =>
    have opens := shut.trimEnd.opens final present (CssSpread.opens_of_read read)
    have reads : (CssSpread.read? (inside ++ kept)).isSome = true := Option.isSome_of_mem read
    exact absurd opens (CssSpread.not_opens_of_silent silent removes final present reads)

/-- What remains of quiet pieces holds no flat spread. -/
theorem silent_remaining {pieces : List Piece} {tail : List Char}
    (settled : ∀ piece ∈ pieces, piece.Settled) (quiet : Quiet pieces tail)
    (silentTail : CssSpread.pattern.Silent tail []) (pending : List Char)
    (shut : CssSpread.Sealed pending)
    (silent : CssSpread.pattern.Silent pending (pieces.flatMap text ++ tail)) :
    CssSpread.pattern.Silent (remaining isFlat pending pieces ++ tail) [] := by
  induction pieces generalizing pending with
  | nil =>
    refine Pattern.Silent.append ?_ silentTail
    simpa [remaining] using silent
  | cons piece rest inductionHypothesis =>
    have settledRest : ∀ other ∈ rest, other.Settled :=
      fun other member => settled other (List.mem_cons_of_mem _ member)
    rw [List.flatMap_cons, List.append_assoc] at silent
    by_cases flat : piece.isFlat = true
    · have later := inductionHypothesis settledRest quiet.of_cons [] CssSpread.sealed_nil
        (Pattern.silent_nil _ _)
      rw [remaining, if_pos flat, List.append_assoc]
      refine Pattern.Silent.append ?_ later
      rw [List.append_nil]
      exact silent_trimEnd flat shut silent _
    · have kept : piece.isFlat = false := Bool.eq_false_iff.mpr flat
      have here := quiet [] piece rest rfl kept
      rw [remaining, if_neg flat]
      exact inductionHypothesis settledRest quiet.of_cons _
        ((settled piece List.mem_cons_self).sealed shut) (silent.append here)

end Piece

end ScopedMarkup
