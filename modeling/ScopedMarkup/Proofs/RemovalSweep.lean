import ScopedMarkup.Proofs.FlatTags
import ScopedMarkup.Proofs.RemovedSpreads
import ScopedMarkup.Proofs.Reopening

/-!
# Sweeping a text for removals

Removal can be carried out with byte offsets. A sweep keeps the offset that it has come to and the
text that it has kept so far. It looks for the first match of the spread expression from the offset
on, keeps what stands in front of it without the blanks at its end, and goes on behind the balanced
group that begins with the match. If there is no such group, or if it ended within the match, the
sweep goes on behind the match.

A match ends with the first `}` behind its start, and a group ends with some `}`. So the group never
ends within the match, and the end of the match is taken only where the braces never balance. Every
move therefore leads strictly forward, to a place between two characters. A sweep comes to its end,
never leaves the text, and takes out what cutting the text at its removals takes out.
-/

namespace ScopedMarkup

namespace CssSpread

/-- The expression of spreads matches the spreads that are read. -/
theorem read_regex (input : List Char) : regex.read? input =
    (pattern.read? input).map fun spread =>
      (pattern.text spread, input.drop (pattern.text spread).length) := by
  simp only [Regex.read?, run_regex, pattern]
  cases read? input with
  | none => rfl
  | some spread => simp [Braces.keep]

/-- A match is a spread as it is written. -/
theorem matches_iff {taken behind : List Char} : regex.Matches taken behind ↔
    ∃ spread, read? (taken ++ behind) = some spread ∧ spread.text = taken := by
  have reads := (Pattern.recognises_of_read read_regex).reads taken behind
  constructor
  · intro matched
    exact reads.mp ⟨matched, rfl⟩
  · intro found
    exact (reads.mpr found).1

/-- A spread is found behind text in which none is read. -/
theorem find_of_silent {gap input : List Char} {spread : CssSpread}
    (silent : pattern.Silent gap input) (read : read? input = some spread) :
    ∃ behind, regex.find? (gap ++ input) = some (gap, spread.text, behind) := by
  obtain ⟨behind, rfl⟩ := eq_text_append_of_read read
  refine ⟨behind, Regex.find?_eq_some_iff.mpr ⟨rfl, matches_iff.mpr ⟨spread, read, rfl⟩, ?_⟩⟩
  intro inside final present
  rw [read_regex, silent inside final present, Option.map_none]

/-- Nothing is found in a text in which no spread is read. -/
theorem find_of_silent_end {text : List Char} (silent : pattern.Silent text []) :
    regex.find? text = none := by
  apply Regex.find?_eq_none_iff.mpr
  intro inside final
  rw [read_regex, silent.read_none final, Option.map_none]

/-- A match goes up to the first `}` of the text behind its brace. -/
theorem ends_at_first_brace {taken behind : List Char} (matched : regex.Matches taken behind) :
    ∃ inner, taken = '{' :: inner ++ ['}'] ∧ '}' ∉ inner := by
  obtain ⟨spread, read, rfl⟩ := matches_iff.mp matched
  refine ⟨spread.blanks ++ '.' :: '.' :: '.' :: spread.body, by simp [text], ?_⟩
  intro member
  exact brace_not_mem read (List.mem_cons_of_mem _ member)

/-- The group at the head of a text does not end within the spread there, for its last brace would
stand in front of the first one. -/
theorem byteLength_le_of_group {input inner behind : List Char} {spread : CssSpread}
    (read : read? input = some spread) (balanced : Braces.group? input = some (inner, behind)) :
    Text.byteLength spread.text ≤ Text.byteLength ('{' :: inner ++ ['}']) := by
  have joined : input = ('{' :: inner ++ ['}']) ++ behind := by
    rw [Braces.group?_eq balanced]
    simp
  have initial : spread.text <+: ('{' :: inner ++ ['}']) ++ behind := by
    rw [← joined]
    exact (text_of_read read).2
  rw [joined] at read
  -- The group holds a `}`, and a reading ends with the first one.
  have within := within_of_mem read (by simp)
  apply Text.byteLength_le_of_prefix
  exact List.prefix_of_prefix_length_le initial (List.prefix_append _ behind) within

end CssSpread

/-- The end of the group that begins behind some text. -/
theorem Braces.endOffset?_append (front input : List Char) :
    endOffset? (front ++ input) (Text.byteLength front) =
      (group? input).map fun (inner, _) => Text.byteLength (front ++ ('{' :: inner ++ ['}'])) := by
  rw [endOffset?, Text.fromByte?_append]
  simp only [Option.bind_eq_bind, Option.bind_some, Option.pure_def, Text.byteLength_append]
  cases group? input <;> rfl

/-- Where a removal ends whose match lies between two offsets: behind the balanced group that begins
with the match, unless there is none or it ends within the match. -/
def removalEnd (text : List Char) (start stop : Nat) : Nat :=
  match Braces.endOffset? text start with
  | some balanced => if stop ≤ balanced then balanced else stop
  | none => stop

/-- The group that begins with a match never ends within the match. -/
theorem stop_le_of_endOffset? {front input : List Char} {spread : CssSpread} {balanced : Nat}
    (read : CssSpread.read? input = some spread)
    (found : Braces.endOffset? (front ++ input) (Text.byteLength front) = some balanced) :
    Text.byteLength (front ++ spread.text) ≤ balanced := by
  rw [Braces.endOffset?_append] at found
  obtain ⟨⟨inner, behind⟩, balances, rfl⟩ := Option.map_eq_some_iff.mp found
  have within := CssSpread.byteLength_le_of_group read balances
  simp only [Text.byteLength_append front]
  exact Nat.add_le_add_left within _

/-- So the end of the match is taken only where the braces do not balance. -/
theorem removalEnd_eq {front input : List Char} {spread : CssSpread}
    (read : CssSpread.read? input = some spread) :
    removalEnd (front ++ input) (Text.byteLength front) (Text.byteLength (front ++ spread.text)) =
      (Braces.endOffset? (front ++ input) (Text.byteLength front)).getD
        (Text.byteLength (front ++ spread.text)) := by
  rw [removalEnd]
  cases found : Braces.endOffset? (front ++ input) (Text.byteLength front) with
  | none => rfl
  | some balanced => exact if_pos (stop_le_of_endOffset? read found)

/-- A removal ends where its characters do. -/
theorem removalEnd_of_removal {front input removed : List Char} {spread : CssSpread}
    (read : CssSpread.read? input = some spread) (taken : removal? input = some removed) :
    removalEnd (front ++ input) (Text.byteLength front) (Text.byteLength (front ++ spread.text)) =
      Text.byteLength (front ++ removed) := by
  rw [removalEnd_eq read, Braces.endOffset?_append]
  rw [removal?, read] at taken
  cases balances : Braces.group? input with
  | none =>
    rw [balances] at taken
    obtain rfl := Option.some.inj taken
    rfl
  | some found =>
    rw [balances] at taken
    obtain rfl := Option.some.inj taken
    rfl

/-- How far a sweep has come. -/
structure Sweep where
  /-- The byte offset that it goes on from. -/
  offset : Nat
  /-- What it has kept of the text before. -/
  kept : List Char

namespace Sweep

/-- A sweep that has not begun. -/
def start : Sweep := ⟨0, []⟩

/-- What a sweep does next. -/
inductive Move where
  /-- It takes out a byte range and the blanks before it, and goes on from there. -/
  | removes (range : Nat × Nat) (next : Sweep)
  /-- It stops with a text, or without one where its offset lies past the end of the text or within a
  character. -/
  | stops (outcome : Option (List Char))

/-- The next move of a sweep of a text. -/
def move (text : List Char) (sweep : Sweep) : Move :=
  match Text.fromByte? sweep.offset text with
  | none => .stops none
  | some rest =>
    match CssSpread.regex.find? rest with
    | none => .stops (some (sweep.kept ++ rest))
    | some (gap, taken, _) =>
      let first := sweep.offset + Text.byteLength gap
      let stop := removalEnd text first (first + Text.byteLength taken)
      .removes (first, stop) ⟨stop, sweep.kept ++ Text.trimEnd gap⟩

/-- The moves of a sweep until it stops: the ranges that it takes out, and what it stops with. -/
inductive Runs (text : List Char) : Sweep → List (Nat × Nat) → Option (List Char) → Prop where
  /-- The sweep stops. -/
  | stops {sweep : Sweep} {outcome : Option (List Char)}
    (moves : sweep.move text = .stops outcome) : Runs text sweep [] outcome
  /-- The sweep takes a range out and goes on. -/
  | removes {sweep next : Sweep} {range : Nat × Nat} {ranges : List (Nat × Nat)}
    {outcome : Option (List Char)} (moves : sweep.move text = .removes range next)
    (later : Runs text next ranges outcome) : Runs text sweep (range :: ranges) outcome

/-- A sweep that stops has one course only. -/
theorem Runs.unique {text : List Char} {sweep : Sweep} {ranges others : List (Nat × Nat)}
    {outcome other : Option (List Char)} (runs : Runs text sweep ranges outcome)
    (runsToo : Runs text sweep others other) : others = ranges ∧ other = outcome := by
  induction runs generalizing others with
  | stops moves =>
    cases runsToo with
    | stops movesToo =>
      obtain rfl := Move.stops.inj (moves.symm.trans movesToo)
      exact ⟨rfl, rfl⟩
    | removes movesToo _ => exact nomatch moves.symm.trans movesToo
  | removes moves later inductionHypothesis =>
    cases runsToo with
    | stops movesToo => exact nomatch moves.symm.trans movesToo
    | removes movesToo laterToo =>
      obtain ⟨rfl, rfl⟩ := Move.removes.inj (moves.symm.trans movesToo)
      obtain ⟨rfl, rfl⟩ := inductionHypothesis laterToo
      exact ⟨rfl, rfl⟩

/-- Where nothing is left to remove, the sweep stops with what is left. -/
theorem move_of_silent {rest : List Char} (silent : CssSpread.pattern.Silent rest [])
    (front kept : List Char) :
    move (front ++ rest) ⟨Text.byteLength front, kept⟩ =
      .stops (some (kept ++ rest)) := by
  rw [move, Text.fromByte?_append]
  simp only [CssSpread.find_of_silent_end silent]

/-- Before a removal the sweep takes out the characters of that removal, and goes on behind them. -/
theorem move_of_removal {gap removed rest : List Char}
    (silent : CssSpread.pattern.Silent gap (removed ++ rest))
    (taken : removal? (removed ++ rest) = some removed) (front kept : List Char) :
    move (front ++ (gap ++ (removed ++ rest))) ⟨Text.byteLength front, kept⟩ =
      .removes
        (Text.byteLength front + Text.byteLength gap,
          Text.byteLength front + Text.byteLength gap + Text.byteLength removed)
        ⟨Text.byteLength (front ++ (gap ++ removed)), kept ++ Text.trimEnd gap⟩ := by
  obtain ⟨spread, read⟩ := exists_removal_iff.mp ⟨removed, taken⟩
  obtain ⟨behind, found⟩ := CssSpread.find_of_silent silent read
  have stops := @removalEnd_of_removal (front ++ gap) _ removed _ read taken
  simp only [Text.byteLength_append, List.append_assoc] at stops
  rw [move, Text.fromByte?_append]
  simp only [found, stops, Text.byteLength_append, Nat.add_assoc]

/-- From a place between two characters on, a sweep takes out the hits of the right cut of what
stands behind that place, and stops. -/
theorem runs_cut {cut : Split (List Char)} (right : removals.IsRight cut) (front kept : List Char) :
    Runs (front ++ cut.render id) ⟨Text.byteLength front, kept⟩
      (Split.rangesFrom (Text.byteLength front) cut.hits) (some (kept ++ cut.withoutHits)) := by
  obtain ⟨hits, tail⟩ := cut
  -- The text stays the same throughout: what a move goes over passes from the cut to the front.
  induction hits generalizing front kept with
  | nil => exact .stops (move_of_silent (silent_removals_iff.mp right.tail) front kept)
  | cons hit others inductionHypothesis =>
    obtain ⟨gap, removed⟩ := hit
    have taken := right.hit [] gap removed others rfl
    have silent : CssSpread.pattern.Silent gap
        (removed ++ (⟨others, tail⟩ : Split (List Char)).render id) :=
      silent_removals_iff.mp (right.gap [] gap removed others rfl)
    have later := inductionHypothesis (front ++ (gap ++ removed)) (kept ++ Text.trimEnd gap)
      right.behind
    have stop : Text.byteLength (front ++ (gap ++ removed)) =
        Text.byteLength front + Text.byteLength gap + Text.byteLength removed := by
      simp only [Text.byteLength_append, Nat.add_assoc]
    rw [Split.withoutHits_cons, Split.render_cons, ← List.append_assoc kept]
    apply Runs.removes (move_of_removal silent taken front kept)
    rw [← stop]
    simpa only [List.append_assoc] using later

/-- A sweep takes out the ranges of the removals of its text and stops with what removal leaves. -/
theorem runs_iff (text : List Char) (ranges : List (Nat × Nat)) (outcome : Option (List Char)) :
    Runs text start ranges outcome ↔
      ranges = removals.ranges text ∧ outcome = some (withoutSpreads text) := by
  have runs := runs_cut (removals.split_isRight text) [] []
  have taken : Split.rangesFrom 0 (removals.split text).hits = removals.ranges text := by
    rw [← removals.ranges_cut, Pattern.cut, Split.ranges, Split.map]
    simp [removals]
  have whole : (removals.split text).render id = text := removals.render_split text
  rw [List.nil_append, whole, Text.byteLength_nil, taken] at runs
  constructor
  · exact fun runsToo => runs.unique runsToo
  · rintro ⟨rfl, rfl⟩
    exact runs

end Sweep

/-- A removed range lies between two places of the text, and a match begins with it. -/
theorem exists_match_of_range {text : List Char} {range : Nat × Nat}
    (member : range ∈ removals.ranges text) :
    range.1 < range.2 ∧ ∃ front removed behind, text = front ++ (removed ++ behind) ∧
      range = (Text.byteLength front, Text.byteLength (front ++ removed)) ∧
        FoundAt CssSpread.regex.Matches (removed ++ behind) := by
  obtain ⟨hit, located, rfl⟩ := List.mem_map.mp member
  refine ⟨Pattern.start_lt_stopOf located, ?_⟩
  obtain ⟨front, behind, joined, reading, placed⟩ := Pattern.exists_around_of_mem_locate located
  obtain ⟨spread, read⟩ := exists_removal_iff.mp ⟨_, reading⟩
  obtain ⟨left, spelled⟩ := CssSpread.eq_text_append_of_read read
  refine ⟨front, hit.value, behind, joined, ?_, ⟨spread.text, left, spelled, ?_⟩⟩
  · rw [Pattern.stopOf, placed, Position.offset_after, Text.byteLength_append]
    simp [Position.start, removals]
  · exact CssSpread.matches_iff.mpr ⟨spread, spelled ▸ read, rfl⟩

/-- A match ends with the first `}` behind its start, and the group that begins with it ends no
earlier, so a removal ends within its match only where there is no such group. A sweep of the text
therefore stops, with a text and after one course only: it takes out ranges that follow one another,
each of at least one byte and between two places of the text, and what it stops with is the text
without these ranges and without the blanks directly before each of them. -/
theorem sweep_never_steps_back (text : List Char) :
    (∀ front taken behind, text = front ++ (taken ++ behind) →
      CssSpread.regex.Matches taken behind →
        (∃ inner, taken = '{' :: inner ++ ['}'] ∧ '}' ∉ inner) ∧
        (∀ balanced, Braces.endOffset? text (Text.byteLength front) = some balanced →
          Text.byteLength (front ++ taken) ≤ balanced) ∧
        removalEnd text (Text.byteLength front) (Text.byteLength (front ++ taken)) =
          (Braces.endOffset? text (Text.byteLength front)).getD (Text.byteLength (front ++ taken))) ∧
    (∀ ranges outcome, Sweep.Runs text Sweep.start ranges outcome ↔
      ranges = removals.ranges text ∧ outcome = some (withoutSpreads text)) ∧
    (removals.ranges text).Pairwise (fun first second => first.2 ≤ second.1) ∧
    (∀ range ∈ removals.ranges text, range.1 < range.2 ∧
      ∃ front removed behind, text = front ++ (removed ++ behind) ∧
        range = (Text.byteLength front, Text.byteLength (front ++ removed)) ∧
          FoundAt CssSpread.regex.Matches (removed ++ behind)) ∧
    ∃ deletions tail, text = deletions.flatMap Deletion.text ++ tail ∧
      withoutSpreads text = deletions.flatMap Deletion.kept ++ tail ∧
        Deletion.ranges 0 deletions = removals.ranges text ∧
          ∀ deletion ∈ deletions, deletion.TakesBlanks := by
  refine ⟨?_, Sweep.runs_iff text, removals.pairwise_ranges text,
    fun range member => exists_match_of_range member, exists_deletions Position.start text⟩
  rintro front taken behind rfl matched
  obtain ⟨spread, read, rfl⟩ := CssSpread.matches_iff.mp matched
  refine ⟨CssSpread.ends_at_first_brace matched, ?_, removalEnd_eq read⟩
  intro balanced found
  exact stop_le_of_endOffset? read found

/-- A shorthand object, which goes up to the brace that balances its own, and an object whose braces
do not balance, of which only the match goes. -/
theorem sweep_never_steps_back_here :
    CssSpread.regex.Matches "\x7b...\x7bcssTarget\x7d".toList "\x7d \x7b...\x7bcssTarget\x7d>".toList ∧
      (∃ inner, "\x7b...\x7bcssTarget\x7d".toList = '{' :: inner ++ ['}'] ∧ '}' ∉ inner) ∧
        Text.byteLength "<p \x7b...\x7bcssTarget\x7d".toList ≤ 19 ∧
          Sweep.Runs "<p \x7b...\x7bcssTarget\x7d\x7d \x7b...\x7bcssTarget\x7d>".toList Sweep.start
            [(3, 19), (20, 35)] (some "<p>".toList) := by
  have matched : CssSpread.regex.Matches "\x7b...\x7bcssTarget\x7d".toList
      "\x7d \x7b...\x7bcssTarget\x7d>".toList := by decide +kernel
  obtain ⟨ends, runs, _⟩ := sweep_never_steps_back
    "<p \x7b...\x7bcssTarget\x7d\x7d \x7b...\x7bcssTarget\x7d>".toList
  obtain ⟨first, within, _⟩ := ends "<p ".toList _ _ (by decide +kernel) matched
  refine ⟨matched, first, within 19 (by decide +kernel), (runs _ _).mpr ⟨?_, ?_⟩⟩
  · decide +kernel
  · decide +kernel

end ScopedMarkup
