import Mathlib.Data.List.TakeWhile
import ScopedMarkup.Proofs.TagStart

/-!
# Words and the openings in them

A word is a maximal run of characters that may stand in a tag's name. What ends a word is a
script blank, a `/` or a `>`. Every text is a row of words, possibly empty, each with the
character that ends it, and one last word that ends with the text.

A word gives an opening of a kind exactly if a tag of the kind starts in it and the character
behind it is a blank or a `>`. The opening then reaches from the first start to the end of the
word. Later starts in the word, and all starts in a word that ends otherwise, give none. An
edit that only adds text behind openings therefore works word by word.
-/

namespace ScopedMarkup

namespace Word

/-- The character at the head of a text, if it ends a word. -/
def readSeparator? : List Char → Option Char
  | [] => none
  | c :: _ => if isNameChar c then none else some c

/-- The characters that end words. -/
def separators : Pattern Char where
  read? := readSeparator?
  text c := [c]
  text_of_read := by
    intro input c read
    cases input with
    | nil => exact nomatch read
    | cons first rest =>
      rw [readSeparator?] at read
      split at read
      · exact nomatch read
      · rw [← Option.some.inj read]
        exact ⟨List.cons_ne_nil _ _, rest, rfl⟩

/-- Whether a word with `next` directly behind it ends as an opening does. -/
def endsOpening (next : Char) : Bool := Text.isScriptBlank next || next == '>'

/-- The rest of a word behind the `<` of the first tag of a kind that starts in it. -/
def name? (kind : TagKind) : List Char → Option (List Char)
  | [] => none
  | c :: rest => if kind.starts (c :: rest) then some rest else name? kind rest

/-- Every text is its last word, or a word, a separator and another text. -/
theorem induction {motive : List Char → Prop}
    (last : ∀ word : List Char, (∀ c ∈ word, isNameChar c = true) → motive word)
    (step : ∀ (word : List Char) (next : Char) (rest : List Char),
      (∀ c ∈ word, isNameChar c = true) → isNameChar next = false → motive rest →
        motive (word ++ next :: rest))
    (text : List Char) : motive text := by
  induction bound : text.length using Nat.strongRecOn generalizing text with
  | ind size inductionHypothesis =>
    have whole : text.takeWhile isNameChar ++ text.dropWhile isNameChar = text :=
      List.takeWhile_append_dropWhile
    have named : ∀ c ∈ text.takeWhile isNameChar, isNameChar c = true :=
      fun c member => List.mem_takeWhile_imp member
    cases left : text.dropWhile isNameChar with
    | nil =>
      rw [left, List.append_nil] at whole
      exact whole ▸ last _ named
    | cons next rest =>
      have ended : isNameChar next = false := by
        have stops := List.head?_dropWhile_not isNameChar text
        simpa [left] using stops
      rw [left] at whole
      rw [← whole]
      have shorter : rest.length < size := by
        rw [← bound, ← whole, List.length_append, List.length_cons]
        omega
      exact step _ next rest named ended (inductionHypothesis rest.length shorter rest rfl)

/-- A separator is read where it stands, and nowhere within a word. -/
theorem silent_word {word : List Char} (named : ∀ c ∈ word, isNameChar c = true)
    (behind : List Char) : separators.Silent word behind := by
  intro inside final present
  obtain ⟨c, rest, rfl⟩ := List.exists_cons_of_ne_nil present
  have member : c ∈ word := final.subset List.mem_cons_self
  show readSeparator? (c :: (rest ++ behind)) = none
  rw [readSeparator?, if_pos (named c member)]

/-- The words of a text with no separator. -/
theorem split_last {word : List Char} (named : ∀ c ∈ word, isNameChar c = true) :
    separators.split word = ⟨[], word⟩ :=
  separators.split_of_silent (silent_word named [])

/-- The words of a text are its first word and the words of the rest. -/
theorem split_step {word : List Char} {next : Char} (rest : List Char)
    (named : ∀ c ∈ word, isNameChar c = true) (ended : isNameChar next = false) :
    separators.split (word ++ next :: rest) =
      ⟨(word, next) :: (separators.split rest).hits, (separators.split rest).tail⟩ := by
  have read : separators.read? (next :: rest) = some next := by
    show readSeparator? (next :: rest) = some next
    rw [readSeparator?, if_neg (by simp [ended])]
  have first : separators.split (next :: rest) = (separators.split rest).precede next :=
    separators.split_append next rest read
  rw [separators.split_append_of_silent word _ (silent_word named _), first]
  simp only [Split.append, Split.precede, List.nil_append, List.append_nil]

/-- The words of a text hold name characters only, and what ends them is none: the words
are maximal. -/
theorem split_maximal (text : List Char) :
    (∀ hit ∈ (separators.split text).hits,
      (∀ c ∈ hit.1, isNameChar c = true) ∧ isNameChar hit.2 = false) ∧
      ∀ c ∈ (separators.split text).tail, isNameChar c = true := by
  induction text using Word.induction with
  | last word named =>
    rw [split_last named]
    exact ⟨by simp, named⟩
  | step word next rest named ended inductionHypothesis =>
    rw [split_step rest named ended]
    refine ⟨?_, inductionHypothesis.2⟩
    intro hit member
    rcases List.mem_cons.mp member with rfl | later
    · exact ⟨named, ended⟩
    · exact inductionHypothesis.1 hit later

/-- Initials are name characters. -/
theorem isNameChar_of_isInitial {kind : TagKind} {c : Char} (initial : kind.isInitial c = true) :
    isNameChar c = true := by
  have range := TagKind.toNat_of_isInitial initial
  have notSlash : c ≠ '/' := by
    rintro rfl
    revert range
    decide
  have notAngle : c ≠ '>' := by
    rintro rfl
    revert range
    decide
  have notBlank : Text.isScriptBlank c = false := by
    simp only [Text.isScriptBlank, Text.inRanges, Text.scriptBlankRanges, List.any_cons,
      List.any_nil, Bool.or_false, Bool.or_eq_false_iff, Bool.and_eq_false_iff,
      decide_eq_false_iff_not]
    omega
  simp [isNameChar, notBlank, notSlash, notAngle]

/-- An opening at the head of a word takes the whole word, if the word ends as openings do. -/
theorem read_word {kind : TagKind} {word : List Char} {next : Char} (rest : List Char)
    (named : ∀ c ∈ word, isNameChar c = true) (ended : isNameChar next = false) :
    Opening.read? kind (word ++ next :: rest) =
      if kind.starts word && endsOpening next then some ⟨word.drop 1⟩ else none := by
  cases word with
  | nil =>
    have closed : next ≠ '<' := by
      rintro rfl
      exact absurd ended (by decide)
    simp [Opening.read?, TagKind.starts, closed]
  | cons first others =>
    by_cases opened : first = '<'
    · subst opened
      cases others with
      | nil =>
        have noInitial : kind.isInitial next = false := by
          rw [Bool.eq_false_iff]
          intro initial
          simp [isNameChar_of_isInitial initial] at ended
        simp [Opening.read?, TagKind.starts, noInitial]
      | cons initial more =>
        have inner : ∀ c ∈ more, isNameChar c = true :=
          fun c member => named c (List.mem_cons_of_mem _ (List.mem_cons_of_mem _ member))
        have taken : (more ++ next :: rest).takeWhile isNameChar = more := by
          rw [List.takeWhile_append_of_pos inner, List.takeWhile_cons, if_neg (by simp [ended]),
            List.append_nil]
        have left : (more ++ next :: rest).dropWhile isNameChar = next :: rest := by
          rw [List.dropWhile_append_of_pos inner, List.dropWhile_cons, if_neg (by simp [ended])]
        simp [Opening.read?, TagKind.starts, taken, left, Opening.endsBefore, endsOpening]
    · simp [Opening.read?, TagKind.starts, opened]

/-- A word at the end of the text gives no opening. -/
theorem silent_last {kind : TagKind} {word : List Char} (named : ∀ c ∈ word, isNameChar c = true) :
    (Opening.pattern kind).Silent word [] := by
  intro inside final present
  have within : ∀ c ∈ inside, isNameChar c = true := fun c member => named c (final.subset member)
  show Opening.read? kind (inside ++ []) = none
  rw [List.append_nil]
  unfold Opening.read?
  split
  · rename_i first more
    have used : more.dropWhile isNameChar = [] := by
      rw [List.dropWhile_eq_nil_iff]
      exact fun c member => within c (List.mem_cons_of_mem _ (List.mem_cons_of_mem _ member))
    simp [used, Opening.endsBefore]
  · rfl

/-- What a word consists of when a tag of a kind starts in it. -/
theorem eq_append_of_name {kind : TagKind} {word name : List Char} (found : name? kind word = some name) :
    ∃ before, word = before ++ '<' :: name ∧ kind.starts ('<' :: name) = true ∧
      ∀ inside, inside <:+ before → inside ≠ [] → kind.starts (inside ++ '<' :: name) = false := by
  induction word with
  | nil => exact nomatch found
  | cons c rest inductionHypothesis =>
    rw [name?] at found
    split at found
    · rename_i start
      obtain ⟨initial, more, same, _⟩ := TagKind.starts_iff.mp start
      obtain ⟨rfl, rfl⟩ := List.cons.inj same
      rw [← Option.some.inj found]
      refine ⟨[], rfl, start, ?_⟩
      intro inside final present
      exact absurd (List.suffix_nil.mp final) present
    · rename_i unstarted
      obtain ⟨before, rfl, start, earlier⟩ := inductionHypothesis found
      refine ⟨c :: before, rfl, start, ?_⟩
      intro inside final present
      rcases List.suffix_cons_iff.mp final with rfl | within
      · simpa using unstarted
      · exact earlier inside within present

/-- In a word where no tag of a kind starts, none starts at any place. -/
theorem starts_of_name_none {kind : TagKind} {word inside : List Char}
    (absent : name? kind word = none) (final : inside <:+ word) : kind.starts inside = false := by
  induction word with
  | nil =>
    rw [List.suffix_nil.mp final]
    rfl
  | cons c rest inductionHypothesis =>
    rw [name?] at absent
    split at absent
    · exact nomatch absent
    · rename_i unstarted
      rcases List.suffix_cons_iff.mp final with rfl | within
      · simpa using unstarted
      · exact inductionHypothesis absent within

/-- The text that an addition puts behind a word, if any: the word must end as openings do
and hold a start, and the addition may depend on the name. -/
def addition? (kind : TagKind) (add? : List Char → Option (List Char)) (word : List Char)
    (next : Char) : Option (List Char) :=
  if endsOpening next then (name? kind word).bind add? else none

/-- Adding text behind openings, as a replacement of openings. -/
def adding (add? : List Char → Option (List Char)) (opening : Opening) : Option (List Char) :=
  (add? opening.name).map (opening.text ++ ·)

/-- An edit that adds text behind openings leaves a last word as it is. -/
theorem edit_last {kind : TagKind} (add? : List Char → Option (List Char)) {word : List Char}
    (named : ∀ c ∈ word, isNameChar c = true) :
    (Opening.pattern kind).edit (adding add?) word = ⟨word, 0⟩ :=
  (Opening.pattern kind).edit_of_silent _ word (silent_last named)

/-- Nothing is read in the front of a word if no opening starts there that the word ends. -/
theorem silent_front {kind : TagKind} {front late : List Char} {next : Char} (rest : List Char)
    (named : ∀ c ∈ front ++ late, isNameChar c = true) (ended : isNameChar next = false)
    (unopened : ∀ inside, inside <:+ front → inside ≠ [] →
      (kind.starts (inside ++ late) && endsOpening next) = false) :
    (Opening.pattern kind).Silent front (late ++ next :: rest) := by
  intro inside final present
  have within : ∀ c ∈ inside ++ late, isNameChar c = true := by
    intro c member
    apply named c
    rcases List.mem_append.mp member with early | behind
    · exact List.mem_append_left _ (final.subset early)
    · exact List.mem_append_right _ behind
  show Opening.read? kind (inside ++ (late ++ next :: rest)) = none
  rw [← List.append_assoc, read_word rest within ended, unopened inside final present]
  rfl

/-- Nothing is read where a word ends. -/
theorem silent_next {kind : TagKind} {next : Char} (rest : List Char)
    (ended : isNameChar next = false) : (Opening.pattern kind).Silent [next] rest := by
  intro inside final present
  have here : inside = [next] := by
    rcases List.suffix_cons_iff.mp final with same | within
    · exact same
    · exact absurd (List.suffix_nil.mp within) present
  have read := @read_word kind [] next rest (by simp) ended
  rw [here]
  simpa [TagKind.starts, Opening.pattern] using read

/-- The opening that a word with `next` behind it gives, if any. -/
def opening? (kind : TagKind) (word : List Char) (next : Char) : Option Opening :=
  if endsOpening next then (name? kind word).map Opening.mk else none

/-- An addition goes behind the opening that the word gives. -/
theorem addition?_eq (kind : TagKind) (add? : List Char → Option (List Char)) (word : List Char)
    (next : Char) :
    addition? kind add? word next = (opening? kind word next).bind fun opening =>
      add? opening.name := by
  unfold addition? opening?
  split
  · rw [Option.bind_map]
    rfl
  · rfl

/-- A word that gives no opening is passed over together with what ends it. -/
theorem split_step_none {kind : TagKind} {word : List Char} {next : Char} (rest : List Char)
    (named : ∀ c ∈ word, isNameChar c = true) (ended : isNameChar next = false)
    (absent : opening? kind word next = none) :
    (Opening.pattern kind).split (word ++ next :: rest) =
      (⟨[], word ++ [next]⟩ : Split Opening).append ((Opening.pattern kind).split rest) := by
  have silent : (Opening.pattern kind).Silent word (next :: rest) := by
    apply @silent_front kind word [] next rest (by simpa using named) ended
    intro inside final _
    rw [List.append_nil, Bool.and_eq_false_iff]
    by_cases opens : endsOpening next = true
    · have unnamed : name? kind word = none := by simpa [opening?, opens] using absent
      exact Or.inl (starts_of_name_none unnamed final)
    · exact Or.inr (by simpa using opens)
  have behind := (Opening.pattern kind).split_append_of_silent [next] rest (silent_next rest ended)
  rw [List.singleton_append] at behind
  rw [(Opening.pattern kind).split_append_of_silent word _ silent, behind, ← Split.append_assoc]
  rfl

/-- A word that gives an opening ends with it. -/
theorem split_step_some {kind : TagKind} {word : List Char} {next : Char} (rest : List Char)
    (named : ∀ c ∈ word, isNameChar c = true) (ended : isNameChar next = false)
    {opening : Opening} (present : opening? kind word next = some opening) :
    ∃ before, word = before ++ opening.text ∧
      (Opening.pattern kind).split (word ++ next :: rest) =
        (⟨[(before, opening)], [next]⟩ : Split Opening).append
          ((Opening.pattern kind).split rest) := by
  unfold opening? at present
  split at present
  · rename_i opens
    obtain ⟨name, found, rfl⟩ := Option.map_eq_some_iff.mp present
    obtain ⟨before, rfl, start, earlier⟩ := eq_append_of_name found
    have silent : (Opening.pattern kind).Silent before ('<' :: name ++ next :: rest) := by
      apply silent_front rest named ended
      intro inside final present
      rw [earlier inside final present]
      rfl
    have read : (Opening.pattern kind).read?
        ((Opening.pattern kind).text ⟨name⟩ ++ next :: rest) = some ⟨name⟩ := by
      show Opening.read? kind ('<' :: name ++ next :: rest) = some ⟨name⟩
      rw [read_word rest (fun c member => named c (List.mem_append_right before member)) ended,
        start, opens]
      rfl
    have behind := (Opening.pattern kind).split_append_of_silent [next] rest
      (silent_next rest ended)
    rw [List.singleton_append] at behind
    refine ⟨before, rfl, ?_⟩
    rw [List.append_assoc, (Opening.pattern kind).split_append_of_silent before _ silent]
    show Split.append _ ((Opening.pattern kind).split
      ((Opening.pattern kind).text ⟨name⟩ ++ next :: rest)) = _
    have joined : (⟨[], before⟩ : Split Opening).append (Split.precede ⟨name⟩ ⟨[], [next]⟩) =
        ⟨[(before, ⟨name⟩)], [next]⟩ := by
      simp [Split.append, Split.precede]
    rw [(Opening.pattern kind).split_append ⟨name⟩ (next :: rest) read, behind,
      ← Split.append_precede, ← Split.append_assoc, joined]
  · simp at present

/-- The openings of a text are those that its words give. -/
theorem values_step {kind : TagKind} {word : List Char} {next : Char} (rest : List Char)
    (named : ∀ c ∈ word, isNameChar c = true) (ended : isNameChar next = false) :
    ((Opening.pattern kind).split (word ++ next :: rest)).values =
      (opening? kind word next).toList ++ ((Opening.pattern kind).split rest).values := by
  cases given : opening? kind word next with
  | none =>
    rw [split_step_none rest named ended given, Split.values_append]
    rfl
  | some opening =>
    obtain ⟨before, _, cut⟩ := split_step_some rest named ended given
    rw [cut, Split.values_append]
    rfl

/-- An edit that adds text behind openings works word by word. -/
theorem edit_step {kind : TagKind} (add? : List Char → Option (List Char)) {word : List Char}
    {next : Char} (rest : List Char) (named : ∀ c ∈ word, isNameChar c = true)
    (ended : isNameChar next = false) :
    (Opening.pattern kind).edit (adding add?) (word ++ next :: rest) =
      ⟨word ++ (addition? kind add? word next).getD [] ++
          next :: ((Opening.pattern kind).edit (adding add?) rest).text,
        (if (addition? kind add? word next).isSome then 1 else 0) +
          ((Opening.pattern kind).edit (adding add?) rest).places⟩ := by
  rw [addition?_eq]
  cases given : opening? kind word next with
  | none =>
    rw [Pattern.edit_of_split _ _ (split_step_none rest named ended given)]
    simp [Split.render, Split.values]
  | some opening =>
    obtain ⟨before, rfl, cut⟩ := split_step_some rest named ended given
    rw [Pattern.edit_of_split _ _ cut]
    cases added : add? opening.name <;>
      simp [Split.render, Split.values, adding, added, Opening.pattern]

end Word

end ScopedMarkup
