import ScopedMarkup.Braces
import ScopedMarkup.Proofs.Ranges
import ScopedMarkup.Text.Occurrence

/-!
# Regular expressions and the search for their matches

An expression is matched at the head of a text by backtracking. The one thing it can choose is how
many characters a repetition takes, and there it is greedy: the longest run is tried first, and
one character after the other is given back as long as what comes behind does not match. The first
way that goes through is the match. A look-ahead asks whether an expression matches at a place and
takes nothing. Of the matches in a text the first one is that which begins first.

A search goes over a text from left to right. What is found first is listed if what stands behind
it is acceptable, and the search goes on behind it. Otherwise it goes on one character behind the
place where something was found. Every search of a text comes to an end, and to one end only, as
soon as the listed matches are what a pattern reads.
-/

namespace ScopedMarkup

/-- A regular expression. -/
inductive Regex where
  /-- Nothing. -/
  | empty
  /-- A character that passes a test. -/
  | one (test : Char → Bool)
  /-- Any number of characters that pass a test, as many as possible. -/
  | many (test : Char → Bool)
  /-- One expression behind another. -/
  | followedBy (first second : Regex)
  /-- A place at which an expression matches. -/
  | ahead (inner : Regex)

namespace Regex

/-- Expressions one behind the other. -/
def sequence (parts : List Regex) : Regex := parts.foldr followedBy empty

/-- The characters of a word. -/
def word (text : List Char) : Regex := sequence (text.map fun c => one (· == c))

/-- Matching one character, when `next` matches what comes behind it. -/
def runOne (test : Char → Bool) (next : List Char → Option (List Char × List Char)) :
    List Char → Option (List Char × List Char)
  | [] => none
  | c :: rest => if test c then Braces.keep [c] (next rest) else none

/-- Matching a run of characters, when `next` matches what comes behind it. Ending the run before a
character is tried only if no longer run leads to a match. -/
def runMany (test : Char → Bool) (next : List Char → Option (List Char × List Char)) :
    List Char → Option (List Char × List Char)
  | [] => next []
  | c :: rest =>
    if test c then (Braces.keep [c] (runMany test next rest)).or (next (c :: rest))
    else next (c :: rest)

/-- Matching an expression, when `next` matches what comes behind it: what is taken, by both, and
what is left. -/
def run : Regex → (List Char → Option (List Char × List Char)) →
    List Char → Option (List Char × List Char)
  | empty, next => next
  | one test, next => runOne test next
  | many test, next => runMany test next
  | followedBy first second, next => first.run (second.run next)
  | ahead inner, next => fun input =>
    if (inner.run (fun behind => some ([], behind)) input).isSome then next input else none

/-- The match of an expression at the head of a text: what it takes, and what is left. -/
def read? (regex : Regex) (input : List Char) : Option (List Char × List Char) :=
  regex.run (fun behind => some ([], behind)) input

/-- Whether an expression matches a text before what stands behind it. -/
def Matches (regex : Regex) (taken behind : List Char) : Prop :=
  regex.read? (taken ++ behind) = some (taken, behind)

instance (regex : Regex) (taken behind : List Char) : Decidable (regex.Matches taken behind) :=
  inferInstanceAs (Decidable (_ = _))

/-- The match that begins first in a text, with what stands before it and behind it. -/
def find? (regex : Regex) : List Char → Option (List Char × List Char × List Char)
  | [] => (regex.read? []).map fun found => ([], found)
  | c :: rest =>
    match regex.read? (c :: rest) with
    | some found => some ([], found)
    | none => (find? regex rest).map fun (gap, found) => (c :: gap, found)

variable {test : Char → Bool} {next : List Char → Option (List Char × List Char)}

@[simp] theorem run_empty : empty.run next = next := rfl

@[simp] theorem run_one : (one test).run next = runOne test next := rfl

@[simp] theorem run_many : (many test).run next = runMany test next := rfl

@[simp] theorem run_sequence_nil : (sequence []).run next = next := rfl

@[simp] theorem run_sequence_cons (first : Regex) (others : List Regex) :
    (sequence (first :: others)).run next = first.run ((sequence others).run next) := rfl

/-- A character is matched by comparing it. -/
@[simp] theorem runOne_cons (c : Char) (rest : List Char) :
    runOne test next (c :: rest) = if test c then Braces.keep [c] (next rest) else none := rfl

@[simp] theorem runOne_nil : runOne test next [] = none := rfl

/-- A word is matched by comparing it with the head of the text. -/
theorem run_word (wanted input : List Char) : (word wanted).run next input =
    if wanted <+: input then Braces.keep wanted (next (input.drop wanted.length)) else none := by
  induction wanted generalizing input with
  | nil => simp [word, Braces.keep_nil]
  | cons c others inductionHypothesis =>
    cases input with
    | nil => simp [word]
    | cons first rest =>
      show runOne (· == c) ((word others).run next) (first :: rest) = _
      rw [runOne_cons, inductionHypothesis]
      by_cases same : first = c
      · subst same
        by_cases starts : others <+: rest
        · simp [starts, Braces.keep_keep]
        · simp [starts]
      · simp [same, Ne.symm same]

/-- A run has no choice if what comes behind it never begins with a character of the run: it takes
all of them. -/
theorem runMany_of_stop (stops : ∀ c rest, test c = true → next (c :: rest) = none)
    (input : List Char) : runMany test next input =
      Braces.keep (input.takeWhile test) (next (input.dropWhile test)) := by
  induction input with
  | nil => exact (Braces.keep_nil _).symm
  | cons c rest inductionHypothesis =>
    rw [runMany]
    by_cases passes : test c = true
    · rw [if_pos passes, inductionHypothesis, stops c rest passes, List.takeWhile_cons_of_pos passes,
        List.dropWhile_cons_of_pos passes, Braces.keep_keep, Option.or_none]
      rfl
    · rw [if_neg passes, List.takeWhile_cons_of_neg passes, List.dropWhile_cons_of_neg passes,
        Braces.keep_nil]

/-- With nothing behind it, a run takes all it can. -/
theorem runMany_last (input : List Char) : runMany test (fun behind => some ([], behind)) input =
    some (input.takeWhile test, input.dropWhile test) := by
  induction input with
  | nil => rfl
  | cons c rest inductionHypothesis =>
    rw [runMany, inductionHypothesis]
    by_cases passes : test c = true
    · simp [passes, Braces.keep]
    · simp [passes]

/-- A run up to a mark, and the mark, take the text up to its first mark. -/
theorem runMany_mark (mark : Char) (input : List Char) :
    runMany (· != mark) (runOne (· == mark) next) input =
      (Text.cutAt? mark input).bind fun (before, behind) =>
        Braces.keep (before ++ [mark]) (next behind) := by
  induction input with
  | nil => rfl
  | cons c rest inductionHypothesis =>
    rw [runMany, Text.cutAt?, inductionHypothesis]
    by_cases marked : c = mark
    · simp [marked]
    · cases Text.cutAt? mark rest <;> simp [marked, Braces.keep_keep]

/-- A word, a run up to a mark, and the mark take the text up to its first mark, if it begins with
the word. -/
theorem run_word_mark {mark : Char} {wanted : List Char} (free : mark ∉ wanted)
    (input : List Char) :
    (word wanted).run (runMany (· != mark) (runOne (· == mark) next)) input =
      (Text.cutAt? mark input).bind fun (body, behind) =>
        if wanted <+: body then Braces.keep (body ++ [mark]) (next behind) else none := by
  rw [run_word]
  by_cases starts : wanted <+: input
  · obtain ⟨rest, rfl⟩ := starts
    rw [if_pos (List.prefix_append wanted rest), List.drop_left, runMany_mark]
    cases cut : Text.cutAt? mark rest with
    | none =>
      have absent : mark ∉ wanted ++ rest := by
        rw [List.mem_append, not_or]
        exact ⟨free, (Text.cutAt?_eq_none_iff ..).mp cut⟩
      rw [(Text.cutAt?_eq_none_iff ..).mpr absent]
      rfl
    | some parts =>
      obtain ⟨before, behind⟩ := parts
      obtain ⟨rfl, absent⟩ := (Text.cutAt?_eq_some_iff ..).mp cut
      have whole : Text.cutAt? mark (wanted ++ (before ++ mark :: behind)) =
          some (wanted ++ before, behind) := by
        refine (Text.cutAt?_eq_some_iff ..).mpr ⟨(List.append_assoc ..).symm, ?_⟩
        rw [List.mem_append, not_or]
        exact ⟨free, absent⟩
      simp [whole, Braces.keep_keep]
  · rw [if_neg starts]
    cases cut : Text.cutAt? mark input with
    | none => rfl
    | some parts =>
      obtain ⟨body, behind⟩ := parts
      obtain ⟨rfl, _⟩ := (Text.cutAt?_eq_some_iff ..).mp cut
      exact (if_neg fun initial => starts (initial.trans (List.prefix_append _ _))).symm

/-- A word can be looked for at any place before a mark. All of them lead to the same end, so
nothing depends on which one is taken. -/
theorem runMany_word_mark {mark : Char} {wanted : List Char} (present : wanted ≠ [])
    (free : mark ∉ wanted) (input : List Char) :
    runMany (· != mark) ((word wanted).run (runMany (· != mark) (runOne (· == mark) next))) input =
      (Text.cutAt? mark input).bind fun (body, behind) =>
        if Text.contains wanted body then Braces.keep (body ++ [mark]) (next behind) else none := by
  have nowhere : Text.contains wanted [] = false := by
    rw [Text.contains, List.isEmpty_eq_false_iff]
    exact present
  induction input with
  | nil =>
    rw [runMany, run_word_mark free]
    rfl
  | cons c rest inductionHypothesis =>
    rw [runMany, inductionHypothesis, run_word_mark free, Text.cutAt?]
    by_cases marked : c = mark
    · subst marked
      simp [nowhere, present]
    · cases Text.cutAt? mark rest with
      | none => simp [marked]
      | some parts =>
        obtain ⟨body, behind⟩ := parts
        by_cases starts : wanted <+: c :: body <;> by_cases later : Text.contains wanted body <;>
          simp [marked, Text.contains, starts, later, Braces.keep_keep]

/-- An expression that begins as tags of a kind do matches their start first. -/
theorem run_start {kind : TagKind} {c : Char} (initial : kind.isInitial c = true)
    (parts : List Regex) (next : List Char → Option (List Char × List Char)) (rest : List Char) :
    (sequence (.one (· == '<') :: .one kind.isInitial :: parts)).run next
        ('<' :: c :: rest) =
      Braces.keep ['<', c] ((sequence parts).run next rest) := by
  simp [initial, Braces.keep_keep]

/-- It matches nowhere else. -/
theorem run_of_not_starts {kind : TagKind} {input : List Char} (unstarted : kind.starts input = false)
    (parts : List Regex) (next : List Char → Option (List Char × List Char)) :
    (sequence (.one (· == '<') :: .one kind.isInitial :: parts)).run next input = none := by
  match input with
  | [] => rfl
  | [c] => by_cases opened : c = '<' <;> simp [opened]
  | c :: first :: rest =>
    by_cases opened : c = '<'
    · subst opened
      rw [TagKind.starts_open] at unstarted
      simp [unstarted]
    · simp [opened]

/-- Matching accounts for every character if what comes behind does. -/
theorem eq_append_of_run {regex : Regex} {next : List Char → Option (List Char × List Char)}
    (accounts : ∀ {input taken behind}, next input = some (taken, behind) → input = taken ++ behind)
    {input taken behind : List Char} (matched : regex.run next input = some (taken, behind)) :
    input = taken ++ behind := by
  induction regex generalizing next input taken behind with
  | empty => exact accounts matched
  | one test =>
    cases input with
    | nil => exact nomatch matched
    | cons c rest =>
      rw [run_one, runOne_cons, Option.ite_none_right_eq_some] at matched
      obtain ⟨inside, later, rfl⟩ := Braces.keep_eq_some_iff.mp matched.2
      exact congrArg (c :: ·) (accounts later)
  | many test =>
    -- Either a longer run led to the match, or what comes behind matches here.
    rw [run_many] at matched
    induction input generalizing taken with
    | nil => exact accounts matched
    | cons c rest inductionHypothesis =>
      rw [runMany] at matched
      split at matched
      · rcases Option.or_eq_some_iff.mp matched with longer | ⟨_, here⟩
        · obtain ⟨inside, later, rfl⟩ := Braces.keep_eq_some_iff.mp longer
          exact congrArg (c :: ·) (inductionHypothesis later)
        · exact accounts here
      · exact accounts matched
  | followedBy first second hypothesisFirst hypothesisSecond =>
    exact hypothesisFirst (hypothesisSecond accounts) matched
  | ahead inner _ =>
    rw [run, Option.ite_none_right_eq_some] at matched
    exact accounts matched.2

/-- What is matched and what is left make up the text. -/
theorem matches_of_read {regex : Regex} {input taken behind : List Char}
    (matched : regex.read? input = some (taken, behind)) :
    input = taken ++ behind ∧ regex.Matches taken behind := by
  have joined : input = taken ++ behind := by
    apply eq_append_of_run _ matched
    intro input taken behind ended
    obtain ⟨rfl, rfl⟩ := Prod.mk.inj (Option.some.inj ended)
    rfl
  constructor
  · exact joined
  · rw [Matches, ← joined]
    exact matched

/-- A match at the head of a text is found first. -/
theorem find?_of_read {regex : Regex} {input : List Char} {found : List Char × List Char}
    (matched : regex.read? input = some found) : regex.find? input = some ([], found) := by
  cases input with
  | nil => rw [find?, matched, Option.map_some]
  | cons c rest => rw [find?, matched]

/-- Where nothing matches the search goes on behind the first character. -/
theorem find?_of_read_none {regex : Regex} {c : Char} {rest : List Char}
    (unmatched : regex.read? (c :: rest) = none) :
    regex.find? (c :: rest) = (regex.find? rest).map fun (gap, found) => (c :: gap, found) := by
  rw [find?, unmatched]

/-- Nothing is found exactly if no match begins anywhere. -/
theorem find?_eq_none_iff {regex : Regex} {text : List Char} :
    regex.find? text = none ↔ ∀ inside, inside <:+ text → regex.read? inside = none := by
  induction text with
  | nil => simp [find?]
  | cons c rest inductionHypothesis =>
    constructor
    · intro unfound inside final
      have here : regex.read? (c :: rest) = none :=
        Option.eq_none_iff_forall_ne_some.mpr fun found matched =>
          nomatch (find?_of_read matched).symm.trans unfound
      rcases List.suffix_cons_iff.mp final with rfl | within
      · exact here
      · rw [find?_of_read_none here, Option.map_eq_none_iff] at unfound
        exact inductionHypothesis.mp unfound inside within
    · intro unmatched
      rw [find?_of_read_none (unmatched _ List.suffix_rfl), Option.map_eq_none_iff]
      apply inductionHypothesis.mpr
      intro inside final
      exact unmatched inside (final.trans (List.suffix_cons c rest))

/-- What is found is a match, and no match begins in front of it. -/
theorem find?_eq_some_iff {regex : Regex} {text gap taken behind : List Char} :
    regex.find? text = some (gap, taken, behind) ↔
      text = gap ++ (taken ++ behind) ∧ regex.Matches taken behind ∧
        ∀ inside, inside <:+ gap → inside ≠ [] →
          regex.read? (inside ++ (taken ++ behind)) = none := by
  constructor
  · intro found
    induction text generalizing gap with
    | nil =>
      obtain ⟨_, here, same⟩ := Option.map_eq_some_iff.mp found
      obtain ⟨rfl, rfl⟩ := Prod.mk.inj same
      obtain ⟨joined, matched⟩ := matches_of_read here
      exact ⟨joined, matched, fun _ final present => absurd (List.suffix_nil.mp final) present⟩
    | cons c rest inductionHypothesis =>
      cases here : regex.read? (c :: rest) with
      | some other =>
        rw [find?_of_read here] at found
        obtain ⟨rfl, rfl⟩ := Prod.mk.inj (Option.some.inj found)
        obtain ⟨joined, matched⟩ := matches_of_read here
        exact ⟨joined, matched, fun _ final present => absurd (List.suffix_nil.mp final) present⟩
      | none =>
        rw [find?_of_read_none here] at found
        obtain ⟨⟨inner, _⟩, later, same⟩ := Option.map_eq_some_iff.mp found
        obtain ⟨rfl, rfl⟩ := Prod.mk.inj same
        obtain ⟨rfl, matched, unmatched⟩ := inductionHypothesis later
        refine ⟨rfl, matched, fun inside final present => ?_⟩
        rcases List.suffix_cons_iff.mp final with rfl | within
        · exact here
        · exact unmatched inside within present
  · rintro ⟨rfl, matched, unmatched⟩
    induction gap with
    | nil => exact find?_of_read matched
    | cons c rest inductionHypothesis =>
      have later := inductionHypothesis fun inside final =>
        unmatched inside (final.trans (List.suffix_cons c rest))
      have here := unmatched _ List.suffix_rfl (List.cons_ne_nil c rest)
      rw [List.cons_append] at here ⊢
      rw [find?_of_read_none here, later, Option.map_some]

end Regex

/-- The cut in which the hits stand for something else. -/
def Split.map {α β : Type} (change : α → β) (cut : Split α) : Split β :=
  ⟨cut.hits.map fun hit => (hit.1, change hit.2), cut.tail⟩

/-- The byte ranges of the hits of a cut that begins at a byte offset. -/
def Split.rangesFrom : Nat → List (List Char × List Char) → List (Nat × Nat)
  | _, [] => []
  | offset, (gap, taken) :: hits =>
    let start := offset + Text.byteLength gap
    let stop := start + Text.byteLength taken
    (start, stop) :: Split.rangesFrom stop hits

/-- The byte ranges of the hits of a cut. -/
def Split.ranges (cut : Split (List Char)) : List (Nat × Nat) := Split.rangesFrom 0 cut.hits

/-- Whether something is found at the head of a text. -/
def FoundAt (found : List Char → List Char → Prop) (input : List Char) : Prop :=
  ∃ taken behind, input = taken ++ behind ∧ found taken behind

/-- The search of a text for what is found in it, where `found taken behind` says that `taken` is
found before `behind`. What is found is listed if `accepts` holds of what stands behind it. -/
inductive Search (found : List Char → List Char → Prop) (accepts : List Char → Bool) :
    List Char → Split (List Char) → Prop where
  /-- Nothing is found any more. -/
  | done (text : List Char)
      (unfound : ∀ inside, inside <:+ text → inside ≠ [] → ¬FoundAt found inside) :
      Search found accepts text ⟨[], text⟩
  /-- What is found first is accepted, and the search goes on behind it. -/
  | accepted (gap taken behind : List Char) (cut : Split (List Char))
      (unfound : ∀ inside, inside <:+ gap → inside ≠ [] →
        ¬FoundAt found (inside ++ (taken ++ behind)))
      (here : found taken behind) (acceptable : accepts behind = true)
      (later : Search found accepts behind cut) :
      Search found accepts (gap ++ (taken ++ behind)) ⟨(gap, taken) :: cut.hits, cut.tail⟩
  /-- What is found first is not accepted, and the search goes on one character behind the place
  where it begins. -/
  | rejected (gap : List Char) (c : Char) (rest taken behind : List Char) (cut : Split (List Char))
      (unfound : ∀ inside, inside <:+ gap → inside ≠ [] → ¬FoundAt found (inside ++ c :: rest))
      (spelled : c :: rest = taken ++ behind) (here : found taken behind)
      (unacceptable : accepts behind = false) (later : Search found accepts rest cut) :
      Search found accepts (gap ++ c :: rest) ((⟨[], gap ++ [c]⟩ : Split (List Char)).append cut)

/-- A character at which nothing is found may be put in front of what is searched. -/
theorem Search.skip {found : List Char → List Char → Prop} {accepts : List Char → Bool} {c : Char}
    {text : List Char} {cut : Split (List Char)} (unfoundHere : ¬FoundAt found (c :: text))
    (search : Search found accepts text cut) : Search found accepts (c :: text) (cut.push c) := by
  cases search with
  | done _ unfound =>
    refine .done (c :: text) fun inside final present => ?_
    rcases List.suffix_cons_iff.mp final with rfl | within
    · exact unfoundHere
    · exact unfound inside within present
  | accepted gap taken behind cut unfound here acceptable later =>
    refine .accepted (c :: gap) taken behind cut (fun inside final present => ?_) here acceptable
      later
    rcases List.suffix_cons_iff.mp final with rfl | within
    · exact unfoundHere
    · exact unfound inside within present
  | rejected gap first rest taken behind cut unfound spelled here unacceptable later =>
    rw [← Split.append_push]
    refine .rejected (c :: gap) first rest taken behind cut (fun inside final present => ?_) spelled
      here unacceptable later
    rcases List.suffix_cons_iff.mp final with rfl | within
    · exact unfoundHere
    · exact unfound inside within present

namespace Pattern

variable {α : Type}

/-- The cut of a text at the hits, as they are written. -/
def cut (pattern : Pattern α) (text : List Char) : Split (List Char) :=
  (pattern.split text).map pattern.text

/-- The ranges of the cut are those of the hits. -/
theorem ranges_cut (pattern : Pattern α) (text : List Char) :
    (pattern.cut text).ranges = pattern.ranges text := by
  have each : ∀ (hits : List (List Char × α)) (position : Position),
      Split.rangesFrom position.offset (hits.map fun hit => (hit.1, pattern.text hit.2)) =
        (pattern.locateHits position hits).map fun found =>
          (found.position.offset, pattern.stopOf found) := by
    intro hits
    induction hits with
    | nil => exact fun _ => rfl
    | cons first others inductionHypothesis =>
      intro position
      rw [List.map_cons, Split.rangesFrom, locateHits, List.map_cons, ← inductionHypothesis]
      simp only [stopOf, Position.offset_after]
  exact each (pattern.split text).hits Position.start

/-- A pattern recognises what is found in a text and accepted. -/
structure Recognises (pattern : Pattern α) (found : List Char → List Char → Prop)
    (accepts : List Char → Bool) : Prop where
  /-- What the pattern reads is what is found and accepted. -/
  reads : ∀ taken behind, (found taken behind ∧ accepts behind = true) ↔
    ∃ hit, pattern.read? (taken ++ behind) = some hit ∧ pattern.text hit = taken
  /-- At one place one thing is found. -/
  unique : ∀ {taken behind other left}, found taken behind → found other left →
    taken ++ behind = other ++ left → taken = other ∧ behind = left
  /-- Nothing is found where the text ends. -/
  present : ∀ {taken behind}, found taken behind → taken ≠ []

variable {pattern : Pattern α} {found : List Char → List Char → Prop} {accepts : List Char → Bool}

/-- Nothing is read where nothing is found. -/
theorem Recognises.silent (recognises : pattern.Recognises found accepts) {gap behind : List Char}
    (unfound : ∀ inside, inside <:+ gap → inside ≠ [] → ¬FoundAt found (inside ++ behind)) :
    pattern.Silent gap behind := by
  intro inside final present
  cases read : pattern.read? (inside ++ behind) with
  | none => rfl
  | some hit =>
    exfalso
    obtain ⟨_, left, joined⟩ := pattern.text_of_read read
    rw [← joined] at read
    obtain ⟨here, _⟩ := (recognises.reads _ left).mpr ⟨hit, read, rfl⟩
    exact unfound inside final present ⟨_, left, joined.symm, here⟩

/-- Nothing is read where something is found that is not accepted. -/
theorem Recognises.read_none (recognises : pattern.Recognises found accepts)
    {taken behind : List Char} (here : found taken behind) (unacceptable : accepts behind = false) :
    pattern.read? (taken ++ behind) = none := by
  cases read : pattern.read? (taken ++ behind) with
  | none => rfl
  | some hit =>
    exfalso
    obtain ⟨_, left, joined⟩ := pattern.text_of_read read
    rw [← joined] at read
    obtain ⟨hereToo, acceptable⟩ := (recognises.reads _ left).mpr ⟨hit, read, rfl⟩
    obtain ⟨_, rfl⟩ := recognises.unique here hereToo joined.symm
    rw [unacceptable] at acceptable
    exact Bool.false_ne_true acceptable

/-- The search of a text leads to the cut of the pattern. -/
theorem Recognises.search_cut (recognises : pattern.Recognises found accepts) (text : List Char) :
    Search found accepts text (pattern.cut text) := by
  induction text using pattern.induction with
  | nil => exact .done [] fun inside final present => absurd (List.suffix_nil.mp final) present
  | skip c rest unread inductionHypothesis =>
    have pushed : pattern.cut (c :: rest) = (pattern.cut rest).push c := by
      rw [cut, pattern.split_of_read_none c rest unread, cut]
      cases pattern.split rest with
      | mk hits tail => cases hits <;> rfl
    rw [pushed]
    by_cases something : FoundAt found (c :: rest)
    · obtain ⟨taken, behind, spelled, here⟩ := something
      have unacceptable : accepts behind = false := by
        rw [Bool.eq_false_iff]
        intro acceptable
        obtain ⟨hit, read, _⟩ := (recognises.reads taken behind).mp ⟨here, acceptable⟩
        rw [← spelled, unread] at read
        exact nomatch read
      have rejected := Search.rejected [] c rest taken behind _
        (fun inside final present => absurd (List.suffix_nil.mp final) present) spelled here
        unacceptable inductionHypothesis
      rwa [← Split.empty_append (pattern.cut rest), ← Split.append_push]
    · exact inductionHypothesis.skip something
  | hit first behind read inductionHypothesis =>
    have preceded : pattern.cut (pattern.text first ++ behind) =
        ⟨([], pattern.text first) :: (pattern.cut behind).hits, (pattern.cut behind).tail⟩ := by
      rw [cut, pattern.split_append first behind read]
      rfl
    obtain ⟨here, acceptable⟩ :=
      (recognises.reads (pattern.text first) behind).mpr ⟨first, read, rfl⟩
    rw [preceded]
    exact .accepted [] _ behind _
      (fun inside final present => absurd (List.suffix_nil.mp final) present) here acceptable
      inductionHypothesis

/-- No search leads to another one. -/
theorem Recognises.eq_cut (recognises : pattern.Recognises found accepts) {text : List Char}
    {other : Split (List Char)} (search : Search found accepts text other) :
    other = pattern.cut text := by
  induction search with
  | done text unfound =>
    have silent : pattern.Silent text [] :=
      recognises.silent fun inside final present => by
        rw [List.append_nil]
        exact unfound inside final present
    rw [cut, pattern.split_of_silent silent]
    rfl
  | accepted gap taken behind later unfound here acceptable _ inductionHypothesis =>
    obtain ⟨hit, read, rfl⟩ := (recognises.reads taken behind).mp ⟨here, acceptable⟩
    rw [inductionHypothesis, cut, cut,
      pattern.split_append_of_silent gap _ (recognises.silent unfound),
      pattern.split_append hit behind read]
    simp [Split.append, Split.precede, Split.map]
  | rejected gap c rest taken behind later unfound spelled here unacceptable _ inductionHypothesis =>
    have unread : pattern.read? (c :: rest) = none := by
      rw [spelled]
      exact recognises.read_none here unacceptable
    rw [inductionHypothesis, cut, cut,
      pattern.split_append_of_silent gap _ (recognises.silent unfound),
      pattern.split_of_read_none c rest unread]
    cases pattern.split rest with
    | mk hits tail => cases hits <;> simp [Split.append, Split.push, Split.map]

/-- The search of a text ends with the cut of the pattern, and only with it. -/
theorem Recognises.search_iff (recognises : pattern.Recognises found accepts) (text : List Char)
    (other : Split (List Char)) : Search found accepts text other ↔ other = pattern.cut text :=
  ⟨recognises.eq_cut, fun same => same ▸ recognises.search_cut text⟩

/-- A pattern recognises the accepted matches of an expression if it reads what they are. -/
theorem recognises_of_matches {regex : Regex}
    (reads : ∀ taken behind, (regex.Matches taken behind ∧ accepts behind = true) ↔
      ∃ hit, pattern.read? (taken ++ behind) = some hit ∧ pattern.text hit = taken)
    (present : ∀ behind, ¬regex.Matches [] behind) : pattern.Recognises regex.Matches accepts where
  reads := reads
  unique here other joined := by
    rw [Regex.Matches, joined] at here
    exact Prod.mk.inj (Option.some.inj (here.symm.trans other))
  present here empty := by
    subst empty
    exact present _ here

/-- An expression that begins as tags of a kind do matches what a pattern reads that reads nothing
elsewhere, if it does where a tag of the kind starts. -/
theorem regex_of_start {kind : TagKind} {parts : List Regex}
    (starts : ∀ {input hit}, pattern.read? input = some hit → kind.starts input = true)
    (same : ∀ c rest, kind.isInitial c = true →
      (Regex.sequence (.one (· == '<') :: .one kind.isInitial :: parts)).read? ('<' :: c :: rest) =
        (pattern.read? ('<' :: c :: rest)).map fun hit =>
          (pattern.text hit, ('<' :: c :: rest).drop (pattern.text hit).length))
    (input : List Char) :
    (Regex.sequence (.one (· == '<') :: .one kind.isInitial :: parts)).read? input =
      (pattern.read? input).map fun hit =>
        (pattern.text hit, input.drop (pattern.text hit).length) := by
  by_cases start : kind.starts input = true
  · obtain ⟨c, rest, rfl, initial⟩ := TagKind.starts_iff.mp start
    exact same c rest initial
  · have unread : pattern.read? input = none :=
      Option.eq_none_iff_forall_ne_some.mpr fun hit read => start (starts read)
    rw [unread]
    exact Regex.run_of_not_starts (Bool.eq_false_iff.mpr start) parts _

/-- A pattern that reads what an expression matches recognises all its matches. -/
theorem recognises_of_read {regex : Regex} (same : ∀ input, regex.read? input =
    (pattern.read? input).map fun hit => (pattern.text hit, input.drop (pattern.text hit).length)) :
    pattern.Recognises regex.Matches fun _ => true := by
  have reads : ∀ taken behind, regex.Matches taken behind ↔
      ∃ hit, pattern.read? (taken ++ behind) = some hit ∧ pattern.text hit = taken := by
    intro taken behind
    rw [Regex.Matches, same, Option.map_eq_some_iff]
    constructor
    · rintro ⟨hit, read, written⟩
      exact ⟨hit, read, (Prod.mk.inj written).1⟩
    · rintro ⟨hit, read, rfl⟩
      exact ⟨hit, read, by rw [List.drop_left]⟩
  refine recognises_of_matches (fun taken behind => ?_) fun behind here => ?_
  · rw [reads, eq_self, and_true]
  · obtain ⟨hit, read, empty⟩ := (reads [] behind).mp here
    exact (pattern.text_of_read read).1 empty

end Pattern

end ScopedMarkup
