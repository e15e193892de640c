import ScopedMarkup.Proofs.Backtracking
import ScopedMarkup.Proofs.Ranges
import ScopedMarkup.Proofs.Words

/-!
# Openings as matches with a look-ahead

The openings of a kind are the matches of one expression: a `<`, an initial of the kind, any
number of name characters, and a look-ahead for a blank or `>`. They are also what is left of the
matches of the expression without the look-ahead, if a match is passed over when something else is
next and the search goes on one character behind its `<`. No text keeps such a search from coming
to an end.

Where the openings are can be told without any search. In each run of name characters that cannot
be made longer there is one opening if a blank or `>` is next and a tag of the kind starts in the
run, and otherwise there is none. The opening reaches from the first such start to the end of the
run, since neither a shorter match nor a later start meets another next character.
-/

namespace ScopedMarkup

namespace Opening

/-- A `<` with the longest run of name characters that begins with an initial. -/
def candidate (kind : TagKind) : Regex :=
  .sequence [.one (· == '<'), .one kind.isInitial, .many isNameChar]

/-- The same with a look-ahead for a blank or `>`. -/
def lookahead (kind : TagKind) : Regex :=
  .sequence [.one (· == '<'), .one kind.isInitial, .many isNameChar,
    .ahead (.one fun c => Text.isScriptBlank c || c == '>')]

/-- A name character neither ends an opening nor stands where one ends. -/
theorem endsBefore_cons_of_isNameChar {c : Char} (named : isNameChar c = true) (rest : List Char) :
    endsBefore (c :: rest) = false := by
  simp only [isNameChar, Bool.not_eq_true', Bool.or_eq_false_iff] at named
  simp [endsBefore, named.1.1, named.2]

/-- The look-ahead asks for the end of an opening. -/
theorem run_ahead (next : List Char → Option (List Char × List Char)) (input : List Char) :
    (Regex.ahead (.one fun c => Text.isScriptBlank c || c == '>')).run next input =
      if endsBefore input then next input else none := by
  cases input with
  | nil => rfl
  | cons c rest =>
    by_cases ends : (Text.isScriptBlank c || c == '>') = true
    · simp [Regex.run, endsBefore, ends, Braces.keep]
    · simp [Regex.run, endsBefore, ends]

/-- An opening is read where a tag starts, if its end is next to its name. -/
theorem read_start {kind : TagKind} {c : Char} (initial : kind.isInitial c = true)
    (rest : List Char) : read? kind ('<' :: c :: rest) =
      if endsBefore (rest.dropWhile isNameChar) then some ⟨c :: rest.takeWhile isNameChar⟩
      else none := by
  rw [read?, initial, Bool.true_and]

/-- A candidate takes the whole run of name characters. -/
theorem read_candidate {kind : TagKind} {c : Char} (initial : kind.isInitial c = true)
    (rest : List Char) : (candidate kind).read? ('<' :: c :: rest) =
      some ('<' :: c :: rest.takeWhile isNameChar, rest.dropWhile isNameChar) := by
  rw [Regex.read?, candidate, Regex.run_start initial]
  simp [Regex.runMany_last, Braces.keep]

/-- With the look-ahead, exactly the openings are matched. A shorter run than the whole one does
not help, for a name character would be next. -/
theorem read_lookahead (kind : TagKind) (input : List Char) : (lookahead kind).read? input =
    ((pattern kind).read? input).map fun opening =>
      ((pattern kind).text opening, input.drop ((pattern kind).text opening).length) := by
  refine Pattern.regex_of_start Opening.starts_of_read (fun c rest initial => ?_) input
  have stops : ∀ first behind, isNameChar first = true →
      (Regex.ahead (.one fun c => Text.isScriptBlank c || c == '>')).run
        (fun behind => some ([], behind)) (first :: behind) = none := by
    intro first behind named
    rw [run_ahead, endsBefore_cons_of_isNameChar named, if_neg Bool.false_ne_true]
  have left : rest.drop (rest.takeWhile isNameChar).length = rest.dropWhile isNameChar := by
    have whole := @List.drop_left _ (rest.takeWhile isNameChar) (rest.dropWhile isNameChar)
    rwa [List.takeWhile_append_dropWhile] at whole
  have opens : (pattern kind).read? ('<' :: c :: rest) = _ := read_start initial rest
  rw [Regex.read?, Regex.run_start initial, opens]
  simp only [Regex.run_sequence_cons, Regex.run_many, Regex.run_sequence_nil,
    Regex.runMany_of_stop stops, run_ahead]
  by_cases ends : endsBefore (rest.dropWhile isNameChar) = true
  · simp [ends, Braces.keep, pattern, text, left]
  · simp [ends]

/-- What a candidate takes begins as a tag, goes over name characters, and leaves the rest. -/
theorem matches_candidate_iff {kind : TagKind} {taken behind : List Char} :
    (candidate kind).Matches taken behind ↔ ∃ (c : Char) (rest : List Char),
      kind.isInitial c = true ∧ taken = '<' :: c :: rest.takeWhile isNameChar ∧
        behind = rest.dropWhile isNameChar := by
  rw [Regex.Matches]
  constructor
  · intro found
    have start : kind.starts (taken ++ behind) = true := by
      rw [← Bool.not_eq_false]
      intro unstarted
      rw [Regex.read?, candidate, Regex.run_of_not_starts unstarted] at found
      cases found
    obtain ⟨c, rest, spelled, initial⟩ := TagKind.starts_iff.mp start
    rw [spelled, read_candidate initial] at found
    obtain ⟨taking, leaving⟩ := Prod.mk.inj (Option.some.inj found)
    exact ⟨c, rest, initial, taking.symm, leaving.symm⟩
  · rintro ⟨c, rest, initial, rfl, rfl⟩
    rw [List.cons_append, List.cons_append, List.takeWhile_append_dropWhile]
    exact read_candidate initial rest

/-- Candidates before the end of an opening are the openings. -/
theorem recognises_candidate (kind : TagKind) :
    (pattern kind).Recognises (candidate kind).Matches endsBefore := by
  refine Pattern.recognises_of_matches (fun taken behind => ?_) fun behind here => ?_
  · show _ ↔ ∃ opening, read? kind (taken ++ behind) = some opening ∧ opening.text = taken
    rw [matches_candidate_iff]
    constructor
    · rintro ⟨⟨c, rest, initial, rfl, rfl⟩, ends⟩
      refine ⟨⟨c :: rest.takeWhile isNameChar⟩, ?_, rfl⟩
      rw [List.cons_append, List.cons_append, List.takeWhile_append_dropWhile, read_start initial,
        if_pos ends]
    · rintro ⟨opening, read, rfl⟩
      obtain ⟨c, rest, spelled, initial⟩ := TagKind.starts_iff.mp (starts_of_read read)
      rw [spelled, read_start initial] at read
      split at read
      · rename_i ends
        obtain rfl := Option.some.inj read
        have leaving : behind = rest.dropWhile isNameChar := by
          have whole : rest.takeWhile isNameChar ++ rest.dropWhile isNameChar = rest :=
            List.takeWhile_append_dropWhile
          exact List.append_cancel_left ((List.cons.inj (List.cons.inj spelled).2).2.trans whole.symm)
        exact ⟨⟨c, rest, initial, rfl, leaving⟩, leaving ▸ ends⟩
      · exact nomatch read
  · obtain ⟨_, _, _, empty, _⟩ := matches_candidate_iff.mp here
    exact nomatch empty

end Opening

namespace Word

/-- A word as a run of name characters between two texts that cannot be made longer. -/
structure IsMaximal (front word : List Char) (next : Char) : Prop where
  /-- All its characters may stand in names. -/
  named : ∀ c ∈ word, isNameChar c = true
  /-- The character before it may not. -/
  bounded : ∀ c, front.getLast? = some c → isNameChar c = false
  /-- Nor may the one behind it. -/
  ended : isNameChar next = false

/-- Whether the first tag of a kind that starts in a word has this name. -/
structure StartsFirst (kind : TagKind) (before name : List Char) : Prop where
  /-- The tag starts there. -/
  starts : kind.starts ('<' :: name) = true
  /-- None starts earlier. -/
  first : ∀ inside, inside <:+ before → inside ≠ [] → kind.starts (inside ++ '<' :: name) = false

/-- A range of a text that reaches from the first start in a word to the end of the word, if the
word ends as an opening does. -/
def HoldsOpening (kind : TagKind) (text : List Char) (range : Nat × Nat) : Prop :=
  ∃ front before name next behind,
    text = front ++ (before ++ '<' :: name ++ next :: behind) ∧
      IsMaximal front (before ++ '<' :: name) next ∧ endsOpening next = true ∧
      StartsFirst kind before name ∧
      range = (Text.byteLength (front ++ before),
        Text.byteLength (front ++ (before ++ '<' :: name)))

/-- The name behind the first start is found. -/
theorem name_eq_some_iff {kind : TagKind} {word name : List Char} :
    name? kind word = some name ↔
      ∃ before, word = before ++ '<' :: name ∧ StartsFirst kind before name := by
  constructor
  · intro found
    obtain ⟨before, spelled, starts, first⟩ := eq_append_of_name found
    exact ⟨before, spelled, starts, first⟩
  · rintro ⟨before, rfl, starts, first⟩
    induction before with
    | nil =>
      rw [List.nil_append, name?, if_pos starts]
    | cons c others inductionHypothesis =>
      have unstarted := first (c :: others) List.suffix_rfl (List.cons_ne_nil c others)
      rw [List.cons_append] at unstarted ⊢
      rw [name?, unstarted, if_neg Bool.false_ne_true]
      exact inductionHypothesis fun inside final present =>
        first inside (final.trans (List.suffix_cons c others)) present

/-- The opening of a word begins behind what stands in the word before it. -/
theorem opening?_eq_some_iff {kind : TagKind} {word : List Char} {next : Char} {opening : Opening} :
    opening? kind word next = some opening ↔ endsOpening next = true ∧
      ∃ before, word = before ++ opening.text ∧ StartsFirst kind before opening.name := by
  rw [opening?]
  by_cases ends : endsOpening next = true
  · rw [if_pos ends, Option.map_eq_some_iff]
    constructor
    · rintro ⟨name, found, rfl⟩
      exact ⟨ends, name_eq_some_iff.mp found⟩
    · rintro ⟨_, found⟩
      exact ⟨opening.name, name_eq_some_iff.mpr found, rfl⟩
  · simp [ends]

/-- The run of name characters that a text begins with ends where they do. -/
theorem takeWhile_word {word : List Char} {next : Char} (rest : List Char)
    (named : ∀ c ∈ word, isNameChar c = true) (ended : isNameChar next = false) :
    (word ++ next :: rest).takeWhile isNameChar = word := by
  rw [List.takeWhile_append_of_pos named, List.takeWhile_cons, if_neg (by simp [ended]),
    List.append_nil]

/-- In a text that begins with a word, a maximal word is that one or stands behind its end. -/
theorem eq_or_behind_of_isMaximal {word front other behind rest : List Char} {next last : Char}
    (named : ∀ c ∈ word, isNameChar c = true) (ended : isNameChar next = false)
    (maximal : IsMaximal front other last)
    (joined : word ++ next :: rest = front ++ (other ++ last :: behind)) :
    (front = [] ∧ other = word ∧ last = next ∧ behind = rest) ∨
      ∃ more, front = word ++ next :: more ∧ rest = more ++ (other ++ last :: behind) := by
  rcases List.eq_nil_or_concat front with rfl | ⟨others, c, rfl⟩
  · left
    rw [List.nil_append] at joined
    have same : other = word := by
      rw [← takeWhile_word behind maximal.named maximal.ended, ← joined,
        takeWhile_word rest named ended]
    subst same
    obtain ⟨rfl, rfl⟩ := List.cons.inj (List.append_cancel_left joined)
    exact ⟨rfl, rfl, rfl, rfl⟩
  · right
    have bounded : isNameChar c = false := maximal.bounded c (by simp)
    obtain ⟨more, spelled, left, ends⟩ := Text.exists_beyond joined (c := c) (by simp) fun member => by
      rw [named c member] at bounded
      exact nomatch bounded
    cases more with
    | nil => exact nomatch ends
    | cons first later =>
      obtain ⟨rfl, rfl⟩ := List.cons.inj left
      exact ⟨later, spelled, rfl⟩

/-- A maximal word is maximal without some of what stands before it. -/
theorem IsMaximal.of_append {shown front word : List Char} {next : Char}
    (maximal : IsMaximal (shown ++ front) word next) : IsMaximal front word next where
  named := maximal.named
  bounded c final := maximal.bounded c (by rw [List.getLast?_append, final]; rfl)
  ended := maximal.ended

/-- It is so, too, behind the end of another word. -/
theorem IsMaximal.append {front word : List Char} {next last : Char}
    (maximal : IsMaximal front word next) (shown : List Char) (ended : isNameChar last = false) :
    IsMaximal (shown ++ last :: front) word next where
  named := maximal.named
  bounded c final := by
    rw [List.getLast?_append, List.getLast?_cons] at final
    cases later : front.getLast? with
    | none =>
      rw [later] at final
      exact Option.some.inj final ▸ ended
    | some other =>
      rw [later] at final
      exact Option.some.inj final ▸ maximal.bounded other later
  ended := maximal.ended

/-- Two maximal words of a text are the same, or one stands behind the end of the other. -/
theorem IsMaximal.eq_or_behind {front word behind shown other rest : List Char} {next last : Char}
    (maximal : IsMaximal front word next) (maximalToo : IsMaximal shown other last)
    (joined : front ++ (word ++ next :: behind) = shown ++ (other ++ last :: rest)) :
    (front = shown ∧ word = other) ∨ (∃ more, shown = front ++ (word ++ next :: more)) ∨
      ∃ more, front = shown ++ (other ++ last :: more) := by
  rcases List.append_eq_append_iff.mp joined with ⟨between, rfl, left⟩ | ⟨between, rfl, left⟩
  · rcases eq_or_behind_of_isMaximal maximal.named maximal.ended maximalToo.of_append left with
      ⟨rfl, rfl, rfl, rfl⟩ | ⟨more, rfl, _⟩
    · exact Or.inl ⟨(List.append_nil front).symm, rfl⟩
    · exact Or.inr (Or.inl ⟨more, rfl⟩)
  · rcases eq_or_behind_of_isMaximal maximalToo.named maximalToo.ended maximal.of_append left with
      ⟨rfl, rfl, rfl, rfl⟩ | ⟨more, rfl, _⟩
    · exact Or.inl ⟨List.append_nil shown, rfl⟩
    · exact Or.inr (Or.inr ⟨more, rfl⟩)

/-- The openings of a text are those of its first word and, behind its end, those of the rest. -/
theorem holdsOpening_step {kind : TagKind} {word : List Char} {next : Char} (rest : List Char)
    (named : ∀ c ∈ word, isNameChar c = true) (ended : isNameChar next = false)
    (range : Nat × Nat) :
    HoldsOpening kind (word ++ next :: rest) range ↔
      (∃ before name, word = before ++ '<' :: name ∧ endsOpening next = true ∧
        StartsFirst kind before name ∧
          range = (Text.byteLength before, Text.byteLength word)) ∨
      ∃ inner, HoldsOpening kind rest inner ∧
        range = Prod.map (Text.byteLength (word ++ [next]) + ·)
          (Text.byteLength (word ++ [next]) + ·) inner := by
  constructor
  · rintro ⟨front, before, name, last, behind, joined, maximal, ends, first, rfl⟩
    rcases eq_or_behind_of_isMaximal named ended maximal joined with
      ⟨rfl, rfl, rfl, rfl⟩ | ⟨more, rfl, rfl⟩
    · exact Or.inl ⟨before, name, rfl, ends, first, rfl⟩
    · have later : IsMaximal ((word ++ [next]) ++ more) (before ++ '<' :: name) last := by
        simpa using maximal
      refine Or.inr ⟨_, ⟨more, before, name, last, behind, rfl, later.of_append, ends, first, rfl⟩,
        ?_⟩
      simp [Text.byteLength_append, Nat.add_assoc]
  · rintro (⟨before, name, rfl, ends, first, rfl⟩ |
      ⟨_, ⟨front, before, name, last, behind, rfl, maximal, ends, first, rfl⟩, rfl⟩)
    · exact ⟨[], before, name, next, rest, rfl, ⟨named, (fun _ final => nomatch final), ended⟩, ends,
        first, rfl⟩
    · refine ⟨word ++ next :: front, before, name, last, behind, by simp,
        maximal.append word ended, ends, first, ?_⟩
      simp [Text.byteLength_append, Nat.add_assoc]

/-- A word that gives no opening is a gap with its end. -/
theorem split_word_none {kind : TagKind} {word : List Char} {next : Char}
    (named : ∀ c ∈ word, isNameChar c = true) (ended : isNameChar next = false)
    (absent : opening? kind word next = none) :
    (Opening.pattern kind).split (word ++ [next]) = ⟨[], word ++ [next]⟩ := by
  rw [split_step_none [] named ended absent, Pattern.split_nil, Split.append_empty]

/-- In a word that gives an opening it is all but the end of the word and what stands before it. -/
theorem split_word_some {kind : TagKind} {before : List Char} {next : Char} {opening : Opening}
    (named : ∀ c ∈ before ++ opening.text, isNameChar c = true) (ended : isNameChar next = false)
    (present : opening? kind (before ++ opening.text) next = some opening) :
    (Opening.pattern kind).split (before ++ opening.text ++ [next]) =
      ⟨[(before, opening)], [next]⟩ := by
  obtain ⟨front, spelled, cut⟩ := split_step_some [] named ended present
  rw [cut, Pattern.split_nil, Split.append_empty, List.append_cancel_right spelled]

/-- The ranges of the openings of a text are that of its first word, if it gives one, and those of
the rest. -/
theorem ranges_step {kind : TagKind} {word : List Char} {next : Char} (rest : List Char)
    (named : ∀ c ∈ word, isNameChar c = true) (ended : isNameChar next = false) :
    (Opening.pattern kind).ranges (word ++ next :: rest) =
      (Opening.pattern kind).ranges (word ++ [next]) ++
        ((Opening.pattern kind).ranges rest).map
          (Prod.map (Text.byteLength (word ++ [next]) + ·)
            (Text.byteLength (word ++ [next]) + ·)) := by
  have parts : (Opening.pattern kind).Parts (word ++ [next]) rest := by
    unfold Pattern.Parts
    rw [List.append_assoc, List.singleton_append]
    cases given : opening? kind word next with
    | none =>
      rw [split_step_none rest named ended given, split_word_none named ended given]
    | some opening =>
      obtain ⟨before, rfl, cut⟩ := split_step_some rest named ended given
      rw [cut, split_word_some named ended given]
  rw [← parts.ranges, List.append_assoc, List.singleton_append]

/-- A word with its end holds the range of the opening that it gives. -/
theorem mem_ranges_word {kind : TagKind} {word : List Char} {next : Char}
    (named : ∀ c ∈ word, isNameChar c = true) (ended : isNameChar next = false)
    (range : Nat × Nat) :
    range ∈ (Opening.pattern kind).ranges (word ++ [next]) ↔
      ∃ before name, word = before ++ '<' :: name ∧ endsOpening next = true ∧
        StartsFirst kind before name ∧
          range = (Text.byteLength before, Text.byteLength word) := by
  cases given : opening? kind word next with
  | none =>
    constructor
    · intro member
      rw [Pattern.ranges, Pattern.locate, split_word_none named ended given] at member
      exact absurd member List.not_mem_nil
    · rintro ⟨before, name, spelled, ends, first, _⟩
      have opens := opening?_eq_some_iff.mpr ⟨ends, before, spelled, (first : StartsFirst kind before
        (Opening.mk name).name)⟩
      rw [given] at opens
      cases opens
  | some opening =>
    obtain ⟨ends, before, rfl, first⟩ := opening?_eq_some_iff.mp given
    have one : (Opening.pattern kind).ranges (before ++ opening.text ++ [next]) =
        [(Text.byteLength before, Text.byteLength (before ++ opening.text))] := by
      rw [Pattern.ranges, Pattern.locate, split_word_some named ended given, Text.byteLength_append]
      simp [Pattern.locateHits, Pattern.stopOf, Position.offset_after, Position.start,
        Opening.pattern]
    rw [one, List.mem_singleton]
    constructor
    · rintro rfl
      exact ⟨before, opening.name, rfl, ends, first, rfl⟩
    · rintro ⟨other, name, again, _, firstToo, rfl⟩
      have opens := opening?_eq_some_iff.mpr ⟨ends, other, again, (firstToo : StartsFirst kind other
        (Opening.mk name).name)⟩
      obtain rfl := Option.some.inj (given.symm.trans opens)
      rw [List.append_cancel_right again]

/-- A last word gives no range. -/
theorem not_holdsOpening_last {kind : TagKind} {word : List Char}
    (named : ∀ c ∈ word, isNameChar c = true) (range : Nat × Nat) :
    ¬HoldsOpening kind word range := by
  rintro ⟨front, before, name, next, behind, rfl, maximal, _⟩
  have inner := named next (by simp)
  rw [maximal.ended] at inner
  exact nomatch inner

/-- The openings of a text are where its words hold them. -/
theorem mem_ranges_iff (kind : TagKind) (text : List Char) (range : Nat × Nat) :
    range ∈ (Opening.pattern kind).ranges text ↔ HoldsOpening kind text range := by
  induction text using Word.induction generalizing range with
  | last word named =>
    rw [Pattern.ranges, Pattern.locate, Pattern.split_of_silent _ (silent_last named)]
    exact iff_of_false List.not_mem_nil (not_holdsOpening_last named range)
  | step word next rest named ended inductionHypothesis =>
    rw [ranges_step rest named ended, List.mem_append, mem_ranges_word named ended,
      holdsOpening_step rest named ended, List.mem_map]
    simp only [inductionHypothesis, eq_comm]

/-- In a word that ends as openings do, and in which a tag starts, there is one range. -/
theorem existsUnique_range {kind : TagKind} {front word behind : List Char} {next : Char}
    (maximal : IsMaximal front word next) (ends : endsOpening next = true)
    (started : ∃ inside, inside <:+ word ∧ kind.starts inside = true) :
    ∃! range, range ∈ (Opening.pattern kind).ranges (front ++ (word ++ next :: behind)) ∧
      Text.byteLength front ≤ range.1 ∧ range.2 ≤ Text.byteLength (front ++ word) := by
  obtain ⟨name, found⟩ : ∃ name, name? kind word = some name := by
    rw [← Option.isSome_iff_exists, Option.isSome_iff_ne_none]
    intro absent
    obtain ⟨inside, final, starts⟩ := started
    rw [starts_of_name_none absent final] at starts
    exact nomatch starts
  obtain ⟨before, rfl, first⟩ := name_eq_some_iff.mp found
  refine ⟨_, ⟨(mem_ranges_iff ..).mpr ⟨front, before, name, next, behind, rfl, maximal, ends,
    first, rfl⟩, ?_, Nat.le_refl _⟩, ?_⟩
  · simp [Text.byteLength_append]
  · rintro range ⟨member, early, late⟩
    obtain ⟨shown, inner, other, last, rest, joined, maximalToo, _, firstToo, rfl⟩ :=
      (mem_ranges_iff ..).mp member
    rcases maximal.eq_or_behind maximalToo joined with ⟨rfl, same⟩ | ⟨more, rfl⟩ | ⟨more, rfl⟩
    · have named := name_eq_some_iff.mpr ⟨inner, same, firstToo⟩
      obtain rfl := Option.some.inj (found.symm.trans named)
      rw [List.append_cancel_right same]
    · simp only [Text.byteLength_append, Text.byteLength_cons] at late
      have := next.utf8Size_pos
      omega
    · simp only [Text.byteLength_append, Text.byteLength_cons] at early
      have := last.utf8Size_pos
      omega

end Word

namespace Opening

/-- The openings of a text are the matches of the expression with the look-ahead. They are also
what the search with candidates accepts, which comes to one end. There is one of them in each
maximal run of name characters in which a tag starts and which a blank or `>` ends, and none
elsewhere. -/
theorem openings_are_lookahead_matches (kind : TagKind) (text : List Char) :
    (∀ cut, Search (lookahead kind).Matches (fun _ => true) text cut ↔
      cut = (pattern kind).cut text) ∧
    (∀ cut, Search (candidate kind).Matches endsBefore text cut ↔
      cut = (pattern kind).cut text) ∧
    ((pattern kind).cut text).ranges = (pattern kind).ranges text ∧
    (∀ range, range ∈ (pattern kind).ranges text ↔ Word.HoldsOpening kind text range) ∧
    (∀ front word next behind, text = front ++ (word ++ next :: behind) →
      Word.IsMaximal front word next → Word.endsOpening next = true →
      (∃ inside, inside <:+ word ∧ kind.starts inside = true) →
        ∃! range, range ∈ (pattern kind).ranges text ∧
          Text.byteLength front ≤ range.1 ∧ range.2 ≤ Text.byteLength (front ++ word)) ∧
    ((pattern kind).ranges text).Pairwise fun first second => first.2 ≤ second.1 := by
  have withLookahead := Pattern.recognises_of_read (read_lookahead kind)
  refine ⟨withLookahead.search_iff text, (recognises_candidate kind).search_iff text,
    (pattern kind).ranges_cut text, Word.mem_ranges_iff kind text, ?_,
    (pattern kind).pairwise_ranges text⟩
  rintro front word next behind rfl maximal ends started
  exact Word.existsUnique_range maximal ends started

/-- A candidate before a `/` is passed over, and the word behind it holds an opening. -/
theorem openings_are_lookahead_matches_slash :
    Search (candidate .element).Matches endsBefore "<a/<b>".toList
      ⟨[("<a/".toList, "<b".toList)], ">".toList⟩ ∧
    ∃! range, range ∈ (pattern .element).ranges "<a/<b>".toList ∧
      Text.byteLength "<a/".toList ≤ range.1 ∧ range.2 ≤ Text.byteLength "<a/<b".toList :=
  have openings := openings_are_lookahead_matches .element "<a/<b>".toList
  have maximal : Word.IsMaximal "<a/".toList "<b".toList '>' :=
    ⟨List.all_eq_true.mp (by decide), fun _ last => Option.some.inj last ▸ by decide, by decide⟩
  ⟨(openings.2.1 _).mpr (by decide +kernel),
    openings.2.2.2.2.1 "<a/".toList "<b".toList '>' [] rfl maximal (by decide)
      ⟨_, List.suffix_rfl, by decide⟩⟩

end Opening

end ScopedMarkup
