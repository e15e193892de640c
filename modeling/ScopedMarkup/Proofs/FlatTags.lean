import ScopedMarkup.Proofs.Backtracking

/-!
# Flat tags as matches

A flat tag is the match of an expression with five repetitions. Of these the one in front of the
spread decides how far the match reaches: it takes as many characters as it can, and so the spread
is the last one that begins before the first `>` and has a `>` behind it. The two around
`cssTarget` have many ways to share the text up to the first `}`, but all of them end there.

This gives a form of the flat tags that asks for no search within a tag. A spread is in reach of
a start if no `>` stands between them and some `>` stands behind the spread. A flat tag begins
where any spread is in reach, and it goes up to the first `>` behind the one that is in reach
farthest from the start. Forwarding rewrites the flat tags that are found from left to right, each
on its own, and nothing else.
-/

namespace ScopedMarkup

namespace CssSpread

/-- A `{`, script blanks, three dots, and the text up to the first `}`, with `cssTarget` in it. -/
def regex : Regex :=
  .sequence [.one (· == '{'), .many Text.isScriptBlank, .word ['.', '.', '.'], .many (· != '}'),
    .word cssTargetName, .many (· != '}'), .one (· == '}')]

/-- Dots are no blanks, so the blanks before them are all taken. -/
theorem run_dots (next : List Char → Option (List Char × List Char)) {c : Char} (rest : List Char)
    (blank : Text.isScriptBlank c = true) :
    (Regex.word ['.', '.', '.']).run next (c :: rest) = none := by
  rw [Regex.run_word, if_neg]
  intro initial
  rw [← (List.cons_prefix_cons.mp initial).1] at blank
  exact absurd blank (by decide)

/-- The expression of spreads takes a spread, whatever has to match behind it. -/
theorem run_regex (next : List Char → Option (List Char × List Char)) (input : List Char) :
    regex.run next input = (read? input).bind fun spread =>
      Braces.keep spread.text (next (input.drop spread.text.length)) := by
  have present : cssTargetName ≠ [] := by decide
  have free : '}' ∉ cssTargetName := by decide
  simp only [regex, Regex.run_sequence_cons, Regex.run_one, Regex.run_many, Regex.run_sequence_nil]
  unfold read?
  split
  · rename_i rest
    rw [Regex.runOne_cons, if_pos (by decide),
      Regex.runMany_of_stop fun _ behind blank => run_dots _ behind blank, Regex.run_word]
    by_cases dotted : ['.', '.', '.'] <+: rest.dropWhile Text.isScriptBlank
    · rw [if_pos dotted]
      obtain ⟨inside, spelled⟩ := dotted
      have whole := List.takeWhile_append_dropWhile (p := Text.isScriptBlank) (l := rest)
      rw [← spelled] at whole ⊢
      rw [List.drop_left, Regex.runMany_word_mark present free]
      simp only [List.cons_append, List.nil_append]
      cases cut : Text.cutAt? '}' inside with
      | none => rfl
      | some parts =>
        obtain ⟨body, behind⟩ := parts
        obtain ⟨rfl, _⟩ := (Text.cutAt?_eq_some_iff ..).mp cut
        have left : '{' :: rest =
            (CssSpread.mk (rest.takeWhile Text.isScriptBlank) body).text ++ behind := by
          conv_lhs => rw [← whole]
          simp [text]
        by_cases mentioned : Text.contains cssTargetName body = true
        · simp only [mentioned, if_true, Option.bind_some, left, List.drop_left', Braces.keep_keep,
            List.cons_append, List.nil_append]
          exact congrArg (Braces.keep · (next behind)) (by simp [text])
        · simp [mentioned]
    · rw [if_neg dotted]
      split
      · rename_i inside spelled
        exact absurd ⟨inside, spelled.symm⟩ dotted
      · rfl
  · rename_i unopened
    cases input with
    | nil => rfl
    | cons c rest =>
      rw [Regex.runOne_cons, if_neg]
      · rfl
      · intro opened
        exact unopened rest (by rw [eq_of_beq opened])

end CssSpread

namespace ForwardingTag

/-- A `<` and an initial, a spread before the next `>`, and the text up to the first `>` behind
it. -/
def regex (kind : TagKind) : Regex :=
  .sequence [.one (· == '<'), .one kind.isInitial, .many (· != '>'), CssSpread.regex,
    .many (· != '>'), .one (· == '>')]

/-- The spread at the head of a text, if a `>` stands behind it, and what stands between them. -/
def ended? (input : List Char) : Option (CssSpread × List Char) :=
  (CssSpread.read? input).bind fun spread =>
    (Text.cutAt? '>' (input.drop spread.text.length)).map fun (after, _) => (spread, after)

/-- The last spread is searched for behind the first character, and then at it. -/
theorem lastSpread_cons {c : Char} (unmarked : c ≠ '>') (rest : List Char) :
    lastSpread? (c :: rest) =
      ((lastSpread? rest).map fun (before, found) => (c :: before, found)).or
        ((ended? (c :: rest)).map fun found => ([], found)) := by
  rw [lastSpread?, if_neg unmarked, ended?]
  cases lastSpread? rest with
  | some parts => rfl
  | none =>
    cases CssSpread.read? (c :: rest) with
    | none => rfl
    | some spread =>
      cases cut : Text.cutAt? '>' ((c :: rest).drop spread.text.length) <;> simp [cut]

/-- With the text up to the next `>` behind it, the expression of spreads takes the spread at the
head of a text. -/
theorem run_ended (input : List Char) :
    CssSpread.regex.run (Regex.runMany (· != '>')
        (Regex.runOne (· == '>') fun behind => some ([], behind))) input =
      (ended? input).map fun (spread, after) =>
        (spread.text ++ after ++ ['>'], input.drop (spread.text ++ after ++ ['>']).length) := by
  rw [CssSpread.run_regex, ended?]
  cases read : CssSpread.read? input with
  | none => rfl
  | some spread =>
    obtain ⟨more, rfl⟩ := CssSpread.eq_text_append_of_read read
    rw [Option.bind_some, Option.bind_some, List.drop_left, Regex.runMany_mark]
    cases cut : Text.cutAt? '>' more with
    | none => rfl
    | some parts =>
      obtain ⟨after, behind⟩ := parts
      obtain ⟨rfl, _⟩ := (Text.cutAt?_eq_some_iff ..).mp cut
      have whole : spread.text ++ (after ++ '>' :: behind) =
          (spread.text ++ after ++ ['>']) ++ behind := by simp
      rw [whole]
      show some _ = some (_, ((spread.text ++ after ++ ['>']) ++ behind).drop _)
      rw [List.drop_left]
      simp

/-- Behind the start of a tag the expression takes the text up to the last spread, that spread, and
the text up to the `>` behind it. -/
theorem run_lastSpread (input : List Char) :
    (Regex.sequence [.many (· != '>'), CssSpread.regex, .many (· != '>'), .one (· == '>')]).run
        (fun behind => some ([], behind)) input =
      (lastSpread? input).map fun (before, spread, after) =>
        (before ++ (spread.text ++ after ++ ['>']),
          input.drop (before ++ (spread.text ++ after ++ ['>'])).length) := by
  simp only [Regex.run_sequence_cons, Regex.run_one, Regex.run_many, Regex.run_sequence_nil]
  induction input with
  | nil =>
    rw [Regex.runMany, run_ended]
    rfl
  | cons c rest inductionHypothesis =>
    rw [Regex.runMany, inductionHypothesis, run_ended]
    by_cases marked : c = '>'
    · subst marked
      rfl
    · rw [lastSpread_cons marked, if_pos (bne_iff_ne.mpr marked)]
      cases lastSpread? rest with
      | some parts => rfl
      | none => cases ended? (c :: rest) <;> rfl

/-- The expression matches the flat tags. -/
theorem read_regex (kind : TagKind) (input : List Char) : (regex kind).read? input =
    ((pattern kind).read? input).map fun tag =>
      ((pattern kind).text tag, input.drop ((pattern kind).text tag).length) := by
  refine Pattern.regex_of_start ForwardingTag.starts_of_read (fun c rest initial => ?_) input
  have begins : (pattern kind).read? ('<' :: c :: rest) = _ := if_pos initial
  rw [Regex.read?, Regex.run_start initial, run_lastSpread, begins]
  cases lastSpread? rest with
  | none => rfl
  | some parts =>
    obtain ⟨before, spread, after⟩ := parts
    simp [Braces.keep, pattern, text]

/-- The last spread begins at no earlier place than any that begins before the next `>` and has a
`>` behind it. -/
theorem length_le_of_lastSpread {text before after : List Char} {spread : CssSpread}
    (found : lastSpread? text = some (before, spread, after)) {front inside : List Char}
    {other : CssSpread} (joined : text = front ++ inside) (free : '>' ∉ front)
    (read : CssSpread.read? inside = some other) (ended : '>' ∈ inside.drop other.text.length) :
    front.length ≤ before.length := by
  induction text generalizing before front with
  | nil => exact nomatch found
  | cons c rest inductionHypothesis =>
    cases front with
    | nil => exact Nat.zero_le _
    | cons first others =>
      obtain ⟨rfl, spelled⟩ := List.cons.inj joined
      rw [List.mem_cons, not_or] at free
      obtain ⟨⟨inner, parts⟩, deeper⟩ :=
        Option.isSome_iff_exists.mp (lastSpread_isSome free.2 read ended)
      change rest = others ++ inside at spelled
      rw [← spelled] at deeper
      rw [lastSpread_cons (Ne.symm free.1), deeper] at found
      obtain ⟨rfl, rfl⟩ := Prod.mk.inj (Option.some.inj found)
      exact Nat.succ_le_succ (inductionHypothesis deeper spelled free.2)

/-- A text as a spread is written. -/
def IsSpread (text : List Char) : Prop :=
  ∃ blanks body, text = '{' :: blanks ++ '.' :: '.' :: '.' :: body ++ ['}'] ∧
    (∀ c ∈ blanks, Text.isScriptBlank c = true) ∧ '}' ∉ body ∧ cssTargetName <:+: body

/-- A spread in reach of the start of a tag: `front` leads from the start to the spread, without a
`>`, and some `>` stands behind the spread. -/
structure Reaches (kind : TagKind) (front spread behind : List Char) : Prop where
  /-- A tag starts at the head of the front. -/
  starts : kind.starts front = true
  /-- No `>` stands before the spread. -/
  free : '>' ∉ front
  /-- The spread is written up to its first `}`. -/
  spelled : IsSpread spread
  /-- A `>` stands behind it. -/
  ended : '>' ∈ behind

/-- A text as a flat tag is written before another text: it goes up to the first `>` behind the
spread that is in reach farthest from its start. -/
def IsForwarding (kind : TagKind) (taken behind : List Char) : Prop :=
  ∃ front spread after, taken = front ++ (spread ++ (after ++ ['>'])) ∧ '>' ∉ after ∧
    Reaches kind front spread (after ++ '>' :: behind) ∧
      ∀ other text rest, taken ++ behind = other ++ (text ++ rest) → Reaches kind other text rest →
        other.length ≤ front.length

/-- A spread as it is written is read before any text. -/
theorem isSpread_iff {text : List Char} (behind : List Char) : IsSpread text ↔
    ∃ spread, CssSpread.read? (text ++ behind) = some spread ∧ spread.text = text := by
  constructor
  · rintro ⟨blanks, body, rfl, facts⟩
    exact ⟨⟨blanks, body⟩, CssSpread.read_eq_some_iff.mpr ⟨⟨behind, rfl⟩, facts⟩, rfl⟩
  · rintro ⟨spread, read, rfl⟩
    exact ⟨spread.blanks, spread.body, rfl, (CssSpread.read_eq_some_iff.mp read).2⟩

variable {kind : TagKind}

/-- A flat tag is read where a spread is in reach. -/
theorem Reaches.read_isSome {front spread behind : List Char} (reaches : Reaches kind front spread behind) :
    (read? kind (front ++ (spread ++ behind))).isSome = true := by
  obtain ⟨hit, read, rfl⟩ := (isSpread_iff behind).mp reaches.spelled
  refine ForwardingTag.read_isSome ?_ reaches.free read (by rw [List.drop_left]; exact reaches.ended)
  obtain ⟨c, rest, spelled, initial⟩ := TagKind.starts_iff.mp reaches.starts
  rw [spelled]
  exact initial

/-- The parts of a flat tag are those around the last spread behind its start. -/
theorem lastSpread_of_read {c : Char} {rest : List Char} {tag : ForwardingTag}
    (read : read? kind ('<' :: c :: rest) = some tag) :
    lastSpread? rest = some (tag.before, tag.spread, tag.after) := by
  rw [read?] at read
  split at read
  · obtain ⟨_, found, rfl⟩ := Option.map_eq_some_iff.mp read
    exact found
  · cases read

/-- The spread of a flat tag is in reach, and none is in reach farther away. -/
theorem isForwarding_of_read {behind : List Char} {tag : ForwardingTag}
    (read : read? kind (tag.text ++ behind) = some tag) : IsForwarding kind tag.text behind := by
  obtain ⟨initial, _, freeAfter, later, joined, reading⟩ := read_spec read
  have spelled : tag.text =
      '<' :: tag.initial :: tag.before ++ (tag.spread.text ++ (tag.after ++ ['>'])) := by
    simp [text]
  have left : behind = later := by
    have whole : tag.text ++ behind = tag.text ++ later := by
      rw [joined, spelled]
      simp
    exact List.append_cancel_left whole
  subst left
  refine ⟨_, tag.spread.text, tag.after, spelled, freeAfter,
    ⟨initial, angle_not_mem_front read, (isSpread_iff _).mpr ⟨tag.spread, reading, rfl⟩, by simp⟩, ?_⟩
  intro front other rest around reaches
  obtain ⟨c, inner, rfl, _⟩ := TagKind.starts_iff.mp reaches.starts
  obtain ⟨hit, readOther, rfl⟩ := (isSpread_iff rest).mp reaches.spelled
  have free : '>' ∉ inner := fun member =>
    reaches.free (List.mem_cons_of_mem _ (List.mem_cons_of_mem _ member))
  rw [around] at read
  have within := length_le_of_lastSpread (lastSpread_of_read read) rfl free readOther
    (by rw [List.drop_left]; exact reaches.ended)
  simpa using within

/-- At one place one text is written as a flat tag. -/
theorem IsForwarding.unique {taken behind other left : List Char}
    (forwarding : IsForwarding kind taken behind) (forwardingToo : IsForwarding kind other left)
    (joined : taken ++ behind = other ++ left) : taken = other ∧ behind = left := by
  obtain ⟨front, spread, after, rfl, free, reaches, farthest⟩ := forwarding
  obtain ⟨frontToo, spreadToo, afterToo, rfl, freeToo, reachesToo, farthestToo⟩ := forwardingToo
  have whole : front ++ (spread ++ (after ++ '>' :: behind)) =
      frontToo ++ (spreadToo ++ (afterToo ++ '>' :: left)) := by
    simpa using joined
  have size : front.length = frontToo.length :=
    Nat.le_antisymm (farthestToo front spread _ (by rw [← joined]; simp) reaches)
      (farthest frontToo spreadToo _ (by rw [joined]; simp) reachesToo)
  obtain ⟨rfl, inner⟩ := List.append_inj whole size
  obtain ⟨hit, read, rfl⟩ := (isSpread_iff (after ++ '>' :: behind)).mp reaches.spelled
  obtain ⟨hitToo, readToo, rfl⟩ := (isSpread_iff (afterToo ++ '>' :: left)).mp reachesToo.spelled
  rw [inner] at read
  obtain rfl := Option.some.inj (read.symm.trans readToo)
  have cut := (Text.cutAt?_eq_some_iff '>' (after ++ '>' :: behind) ..).mpr ⟨rfl, free⟩
  have cutToo := (Text.cutAt?_eq_some_iff ..).mpr ⟨List.append_cancel_left inner, freeToo⟩
  obtain ⟨rfl, rfl⟩ := Prod.mk.inj (Option.some.inj (cut.symm.trans cutToo))
  exact ⟨rfl, rfl⟩

/-- Where a spread is in reach, a text is written as a flat tag, and it is the one that is read. -/
theorem Reaches.exists_read {front spread behind : List Char}
    (reaches : Reaches kind front spread behind) :
    ∃ tag left, front ++ (spread ++ behind) = tag.text ++ left ∧
      read? kind (tag.text ++ left) = some tag ∧ IsForwarding kind tag.text left := by
  obtain ⟨tag, read⟩ := Option.isSome_iff_exists.mp reaches.read_isSome
  obtain ⟨left, joined⟩ := (text_of_read read).2
  rw [← joined] at read
  exact ⟨tag, left, joined.symm, read, isForwarding_of_read read⟩

/-- The pattern of flat tags recognises the texts that are written as such. -/
theorem recognises_isForwarding (kind : TagKind) :
    (pattern kind).Recognises (IsForwarding kind) fun _ => true where
  reads taken behind := by
    show _ ↔ ∃ tag, read? kind (taken ++ behind) = some tag ∧ tag.text = taken
    rw [eq_self, and_true]
    constructor
    · intro forwarding
      have ⟨front, spread, after, spelled, _, reaches, _⟩ := forwarding
      obtain ⟨tag, left, joined, read, forwardingToo⟩ := reaches.exists_read
      have whole : taken ++ behind = tag.text ++ left := by
        rw [← joined, spelled]
        simp
      obtain ⟨rfl, rfl⟩ := forwarding.unique forwardingToo whole
      exact ⟨tag, read, rfl⟩
    · rintro ⟨tag, read, rfl⟩
      exact isForwarding_of_read read
  unique := IsForwarding.unique
  present := by
    rintro taken behind ⟨front, spread, after, rfl, _⟩ empty
    simp at empty

/-- Something is found at the head of a text exactly if a spread is in reach there. -/
theorem foundAt_iff (kind : TagKind) (input : List Char) : FoundAt (IsForwarding kind) input ↔
    ∃ front spread behind, input = front ++ (spread ++ behind) ∧
      Reaches kind front spread behind := by
  constructor
  · rintro ⟨_, behind, rfl, front, spread, after, rfl, _, reaches, _⟩
    exact ⟨front, spread, after ++ '>' :: behind, by simp, reaches⟩
  · rintro ⟨front, spread, behind, rfl, reaches⟩
    obtain ⟨tag, left, joined, _, forwarding⟩ := reaches.exists_read
    exact ⟨tag.text, left, joined, forwarding⟩

/-- A text with the forwarded ids put in and its spreads removed. -/
def mergedText (kind : TagKind) (text : List Char) : List Char :=
  withoutSpreads (Text.insertAfterFirst kind.attributeOpening.toList inheritedIdsEntry.toList text)

end ForwardingTag

/-- A cut in which the hits stand for something else is written as they are. -/
theorem Split.render_map {α β : Type} (change : α → β) (write : β → List Char) (cut : Split α) :
    (cut.map change).render write = cut.render fun hit => write (change hit) := by
  simp only [render, map, List.flatMap_map]

/-- A pass over a text writes the gaps of its cut as they are and every flat tag merged. -/
theorem forwardScope_eq_cut (kind : TagKind) (text : List Char) :
    forwardScope kind text =
      ⟨((ForwardingTag.pattern kind).cut text).render (ForwardingTag.mergedText kind),
        ((ForwardingTag.pattern kind).cut text).hits.length⟩ := by
  have places : ((ForwardingTag.pattern kind).split text).values.countP
      (fun tag => (some (tag.merged kind)).isSome) =
        ((ForwardingTag.pattern kind).cut text).hits.length := by
    simp [Split.values, Pattern.cut, Split.map]
  rw [← places, Pattern.cut, Split.render_map]
  rfl

/-- A pass over a text rewrites the flat tags that are found from left to right. These are at once
the texts from a start to the first `>` behind the spread that is in reach farthest away, and the
matches of the expression; no search finds others. The text between them is kept, each is merged by
itself, and their number is what the pass counts. Without a spread in it the text stays as it is. -/
theorem forwardScope_closed_form (kind : TagKind) (text : List Char) :
    ∃ cut : Split (List Char),
      (∀ other, Search (ForwardingTag.IsForwarding kind) (fun _ => true) text other ↔
        other = cut) ∧
      (∀ other, Search (ForwardingTag.regex kind).Matches (fun _ => true) text other ↔
        other = cut) ∧
      (∀ input, FoundAt (ForwardingTag.IsForwarding kind) input ↔
        ∃ front spread behind, input = front ++ (spread ++ behind) ∧
          ForwardingTag.Reaches kind front spread behind) ∧
      cut.render id = text ∧
      forwardScope kind text =
        ⟨cut.render (ForwardingTag.mergedText kind), cut.hits.length⟩ ∧
      (CssSpread.pattern.occursIn text = false → forwardScope kind text = ⟨text, 0⟩) := by
  have matched := Pattern.recognises_of_read (ForwardingTag.read_regex kind)
  refine ⟨(ForwardingTag.pattern kind).cut text,
    (ForwardingTag.recognises_isForwarding kind).search_iff text, matched.search_iff text,
    ForwardingTag.foundAt_iff kind, ?_, forwardScope_eq_cut kind text, fun absent => ?_⟩
  · rw [Pattern.cut, Split.render_map]
    exact (ForwardingTag.pattern kind).render_split text
  · exact forwardScope_of_silent kind (Pattern.occursIn_eq_false_iff.mp absent)

/-- One flat tag is found and merged, with the parent's ids in its attribute and without its spread.
A spread of something else keeps a text as it is. -/
theorem forwardScope_closed_form_here :
    Search (ForwardingTag.IsForwarding .element) (fun _ => true)
        "x<b data-sveltesheet-ids=\x7b`$\x7bsvelteCssRuntimeId\x7d`\x7d \x7b...cssTarget\x7d c>y".toList
        ⟨[(['x'], "<b data-sveltesheet-ids=\x7b`$\x7bsvelteCssRuntimeId\x7d`\x7d \x7b...cssTarget\x7d c>".toList)],
          ['y']⟩ ∧
      forwardScope .element
          "x<b data-sveltesheet-ids=\x7b`$\x7bsvelteCssRuntimeId\x7d`\x7d \x7b...cssTarget\x7d c>y".toList =
        ⟨"x<b data-sveltesheet-ids=\x7b`$\x7bdataSveltesheetIds\x7d $\x7bsvelteCssRuntimeId\x7d`\x7d c>y".toList,
          1⟩ ∧
      CssSpread.pattern.occursIn "<p \x7b...rest\x7d>".toList = false ∧
      forwardScope .element "<p \x7b...rest\x7d>".toList = ⟨"<p \x7b...rest\x7d>".toList, 0⟩ := by
  have search : Search (ForwardingTag.IsForwarding .element) (fun _ => true)
      "x<b data-sveltesheet-ids=\x7b`$\x7bsvelteCssRuntimeId\x7d`\x7d \x7b...cssTarget\x7d c>y".toList
      ⟨[(['x'], "<b data-sveltesheet-ids=\x7b`$\x7bsvelteCssRuntimeId\x7d`\x7d \x7b...cssTarget\x7d c>".toList)],
        ['y']⟩ :=
    ((ForwardingTag.recognises_isForwarding .element).search_iff _ _).mpr rfl
  obtain ⟨cut, found, _, _, _, written, _⟩ := forwardScope_closed_form .element
    "x<b data-sveltesheet-ids=\x7b`$\x7bsvelteCssRuntimeId\x7d`\x7d \x7b...cssTarget\x7d c>y".toList
  obtain ⟨_, _, _, _, _, _, unchanged⟩ :=
    forwardScope_closed_form .element "<p \x7b...rest\x7d>".toList
  have absent : CssSpread.pattern.occursIn "<p \x7b...rest\x7d>".toList = false := by decide
  refine ⟨search, ?_, absent, unchanged absent⟩
  rw [written, ← (found _).mp search]
  decide +kernel

end ScopedMarkup
