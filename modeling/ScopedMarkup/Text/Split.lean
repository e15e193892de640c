import ScopedMarkup.Text.Position

/-!
# Cutting a text at the hits of a pattern

A pattern recognises something at the head of a text and knows which characters it
covered. Cutting a text reads it from left to right: at each position a hit is taken
if there is one, reading goes on behind it, and every other character falls into the
gap before the next hit. The hits are therefore leftmost and never overlap.

The cut loses nothing: writing the gaps and the hits back in order gives the text.
Replacing hits edits the text; listing them tells places in it.

The walk is by structure on the text. It passes over the characters of a hit by
counting them down.
-/

namespace ScopedMarkup

universe u v

/-- Something that can be recognised at the head of a text. -/
structure Pattern (α : Type u) where
  /-- What stands at the head of the text, if anything. -/
  read? : List Char → Option α
  /-- The characters that were read. -/
  text : α → List Char
  /-- What is read is a nonempty initial part of the text. -/
  text_of_read : ∀ {input hit}, read? input = some hit → text hit ≠ [] ∧ text hit <+: input

/-- A text cut at hits: each hit with the gap before it, and what follows the last. -/
structure Split (α : Type u) where
  /-- The hits in order, each behind the characters since the hit before it. -/
  hits : List (List Char × α)
  /-- The characters behind the last hit. -/
  tail : List Char

namespace Split

variable {α : Type u} {β : Type v}

/-- The cut of a text with one more character in front, outside any hit. -/
def push (c : Char) : Split α → Split α
  | ⟨[], tail⟩ => ⟨[], c :: tail⟩
  | ⟨(gap, hit) :: hits, tail⟩ => ⟨(c :: gap, hit) :: hits, tail⟩

/-- The cut of a text with one more hit in front. -/
def precede (hit : α) (split : Split α) : Split α := ⟨([], hit) :: split.hits, split.tail⟩

/-- The hits without the gaps. -/
def values (split : Split α) : List α := split.hits.map (·.2)

/-- The text in which each hit is written by `write` and the gaps are kept. -/
def render (write : α → List Char) (split : Split α) : List Char :=
  split.hits.flatMap (fun hit => hit.1 ++ write hit.2) ++ split.tail

@[simp] theorem render_push (write : α → List Char) (c : Char) (split : Split α) :
    (split.push c).render write = c :: split.render write := by
  obtain ⟨hits, tail⟩ := split
  cases hits with
  | nil => rfl
  | cons first others => rfl

@[simp] theorem render_precede (write : α → List Char) (hit : α) (split : Split α) :
    (split.precede hit).render write = write hit ++ split.render write := by
  simp only [render, precede, List.flatMap_cons, List.nil_append, List.append_assoc]

@[simp] theorem values_push (c : Char) (split : Split α) : (split.push c).values = split.values := by
  obtain ⟨hits, tail⟩ := split
  cases hits with
  | nil => rfl
  | cons first others => rfl

@[simp] theorem values_precede (hit : α) (split : Split α) :
    (split.precede hit).values = hit :: split.values := rfl

end Split

/-- An edited text, and at how many places it was edited. -/
structure Edit where
  /-- The text as edited. -/
  text : List Char
  /-- The number of places. -/
  places : Nat
deriving DecidableEq, Repr

/-- Something at a place of a text. -/
structure Located (α : Type u) where
  /-- The place directly before it. -/
  position : Position
  /-- What stands there. -/
  value : α

namespace Pattern

variable {α : Type u}

/-- The cut of a text whose first `skip` characters belong to a hit already taken. -/
def splitSkipping (pattern : Pattern α) : Nat → List Char → Split α
  | _, [] => ⟨[], []⟩
  | skip + 1, _ :: rest => pattern.splitSkipping skip rest
  | 0, c :: rest =>
    match pattern.read? (c :: rest) with
    | some hit => (pattern.splitSkipping ((pattern.text hit).length - 1) rest).precede hit
    | none => (pattern.splitSkipping 0 rest).push c

/-- The cut of a text at the leftmost hits that do not overlap. -/
def split (pattern : Pattern α) (text : List Char) : Split α := pattern.splitSkipping 0 text

/-- Whether there is a hit anywhere. -/
def occursIn (pattern : Pattern α) (text : List Char) : Bool :=
  !(pattern.split text).hits.isEmpty

/-- The text with every hit replaced for which `replace` has an answer. -/
def edit (pattern : Pattern α) (replace : α → Option (List Char)) (text : List Char) : Edit :=
  let cut := pattern.split text
  ⟨cut.render fun hit => (replace hit).getD (pattern.text hit),
    cut.values.countP fun hit => (replace hit).isSome⟩

/-- The places of hits, when reading begins at a given place. -/
def locateHits (pattern : Pattern α) : Position → List (List Char × α) → List (Located α)
  | _, [] => []
  | position, (gap, hit) :: hits =>
    let before := position.after gap
    ⟨before, hit⟩ :: pattern.locateHits (before.after (pattern.text hit)) hits

/-- The hits of a text with their places, when the text begins at `position`. -/
def locate (pattern : Pattern α) (position : Position) (text : List Char) : List (Located α) :=
  pattern.locateHits position (pattern.split text).hits

/-- The hits of a text that follow one another without a gap, when its first `skip`
characters belong to a hit already taken, and the text behind them. -/
def manySkipping (pattern : Pattern α) : Nat → List Char → List α × List Char
  | _, [] => ([], [])
  | skip + 1, _ :: rest => pattern.manySkipping skip rest
  | 0, c :: rest =>
    match pattern.read? (c :: rest) with
    | some hit =>
      let (hits, behind) := pattern.manySkipping ((pattern.text hit).length - 1) rest
      (hit :: hits, behind)
    | none => ([], c :: rest)

/-- The hits at the head of a text that follow one another without a gap, and the
text behind them. -/
def many (pattern : Pattern α) (text : List Char) : List α × List Char :=
  pattern.manySkipping 0 text

/-- Characters to be passed over may as well be dropped before. -/
theorem splitSkipping_eq (pattern : Pattern α) (skip : Nat) (text : List Char) :
    pattern.splitSkipping skip text = pattern.split (text.drop skip) := by
  induction text generalizing skip with
  | nil => cases skip <;> rfl
  | cons c rest inductionHypothesis =>
    cases skip with
    | zero => rfl
    | succ skip => rw [splitSkipping, inductionHypothesis, List.drop_succ_cons]

@[simp] theorem split_nil (pattern : Pattern α) : pattern.split [] = ⟨[], []⟩ := rfl

/-- Without a hit the first character falls into the gap. -/
theorem split_of_read_none (pattern : Pattern α) (c : Char) (rest : List Char)
    (unread : pattern.read? (c :: rest) = none) :
    pattern.split (c :: rest) = (pattern.split rest).push c := by
  rw [split, splitSkipping, unread]
  rfl

/-- A hit is taken, and the cut goes on behind the characters that it covers. -/
theorem split_of_read (pattern : Pattern α) (text : List Char) (hit : α)
    (read : pattern.read? text = some hit) :
    pattern.split text = (pattern.split (text.drop (pattern.text hit).length)).precede hit := by
  obtain ⟨present, initial⟩ := pattern.text_of_read read
  cases text with
  | nil => exact absurd (List.prefix_nil.mp initial) present
  | cons c rest =>
    obtain ⟨size, sized⟩ : ∃ size, (pattern.text hit).length = size + 1 :=
      ⟨(pattern.text hit).length - 1, by
        have := List.length_pos_iff.mpr present
        omega⟩
    rw [split, splitSkipping, read]
    show (pattern.splitSkipping ((pattern.text hit).length - 1) rest).precede hit = _
    rw [splitSkipping_eq, sized, Nat.add_sub_cancel, List.drop_succ_cons]

/-- The same, when the hit is followed by a known rest. -/
theorem split_append (pattern : Pattern α) (hit : α) (rest : List Char)
    (read : pattern.read? (pattern.text hit ++ rest) = some hit) :
    pattern.split (pattern.text hit ++ rest) = (pattern.split rest).precede hit := by
  rw [pattern.split_of_read _ hit read, List.drop_left]

/-- A text is gone over from left to right: over one character where nothing is read, and over
all that is read where something is. -/
theorem induction (pattern : Pattern α) {motive : List Char → Prop} (nil : motive [])
    (skip : ∀ c rest, pattern.read? (c :: rest) = none → motive rest → motive (c :: rest))
    (hit : ∀ first behind, pattern.read? (pattern.text first ++ behind) = some first →
      motive behind → motive (pattern.text first ++ behind)) (text : List Char) : motive text := by
  induction bound : text.length using Nat.strongRecOn generalizing text with
  | ind size inductionHypothesis =>
    cases text with
    | nil => exact nil
    | cons c rest =>
      cases read : pattern.read? (c :: rest) with
      | none =>
        exact skip c rest read
          (inductionHypothesis rest.length (by rw [← bound]; exact Nat.lt_succ_self _) rest rfl)
      | some first =>
        obtain ⟨present, behind, joined⟩ := pattern.text_of_read read
        have covered : 0 < (pattern.text first).length := List.length_pos_iff.mpr present
        rw [← joined] at read bound ⊢
        rw [List.length_append] at bound
        exact hit first behind read (inductionHypothesis behind.length (by omega) behind rfl)

/-- Cutting loses nothing: with every hit written as it was read, the gaps and the
hits make up the text again. -/
theorem render_split (pattern : Pattern α) (text : List Char) :
    (pattern.split text).render pattern.text = text := by
  induction text using pattern.induction with
  | nil => rfl
  | skip c rest unread inductionHypothesis =>
    rw [pattern.split_of_read_none c rest unread, Split.render_push, inductionHypothesis]
  | hit first behind read inductionHypothesis =>
    rw [pattern.split_append first behind read, Split.render_precede, inductionHypothesis]

/-- Every hit was read at the head of some final part of the text. -/
theorem read_of_mem_values (pattern : Pattern α) (text : List Char) (hit : α)
    (found : hit ∈ (pattern.split text).values) :
    ∃ before behind, text = before ++ behind ∧ pattern.read? behind = some hit := by
  induction text using pattern.induction with
  | nil => exact absurd found (by rw [split_nil]; exact List.not_mem_nil)
  | skip c rest unread inductionHypothesis =>
    rw [pattern.split_of_read_none c rest unread, Split.values_push] at found
    obtain ⟨before, behind, joined, reading⟩ := inductionHypothesis found
    exact ⟨c :: before, behind, by rw [joined, List.cons_append], reading⟩
  | hit first rest read inductionHypothesis =>
    rw [pattern.split_append first rest read, Split.values_precede, List.mem_cons] at found
    cases found with
    | inl same => exact ⟨[], _, rfl, same ▸ read⟩
    | inr later =>
      obtain ⟨before, behind, joined, reading⟩ := inductionHypothesis later
      exact ⟨pattern.text first ++ before, behind, by rw [List.append_assoc, ← joined], reading⟩

/-- Characters to be passed over may as well be dropped before. -/
theorem manySkipping_eq (pattern : Pattern α) (skip : Nat) (text : List Char) :
    pattern.manySkipping skip text = pattern.many (text.drop skip) := by
  induction text generalizing skip with
  | nil => cases skip <;> rfl
  | cons c rest inductionHypothesis =>
    cases skip with
    | zero => rfl
    | succ skip => rw [manySkipping, inductionHypothesis, List.drop_succ_cons]

@[simp] theorem many_nil (pattern : Pattern α) : pattern.many [] = ([], []) := rfl

/-- A run ends where nothing is read. -/
theorem many_of_read_none (pattern : Pattern α) (text : List Char)
    (unread : pattern.read? text = none) : pattern.many text = ([], text) := by
  cases text with
  | nil => rfl
  | cons c rest =>
    rw [many, manySkipping, unread]

/-- A run that begins with a hit goes on behind it. -/
theorem many_append (pattern : Pattern α) (hit : α) (rest : List Char)
    (read : pattern.read? (pattern.text hit ++ rest) = some hit) :
    pattern.many (pattern.text hit ++ rest) =
      (hit :: (pattern.many rest).1, (pattern.many rest).2) := by
  obtain ⟨present, _⟩ := pattern.text_of_read read
  obtain ⟨c, tail, spelled⟩ := List.exists_cons_of_ne_nil present
  have read' : pattern.read? (c :: (tail ++ rest)) = some hit := by
    rw [← List.cons_append, ← spelled]
    exact read
  have covered : (pattern.text hit).length - 1 = tail.length := by
    rw [spelled, List.length_cons, Nat.add_sub_cancel]
  rw [spelled, List.cons_append, many, manySkipping, read']
  show (hit :: (pattern.manySkipping ((pattern.text hit).length - 1) (tail ++ rest)).1,
    (pattern.manySkipping ((pattern.text hit).length - 1) (tail ++ rest)).2) = _
  rw [manySkipping_eq, covered, List.drop_left]

/-- A run and what is behind it make up the text, and nothing is read behind it unless
the text is used up. -/
theorem many_spec (pattern : Pattern α) (text : List Char) :
    text = (pattern.many text).1.flatMap pattern.text ++ (pattern.many text).2 ∧
      ((pattern.many text).2 = [] ∨ pattern.read? (pattern.many text).2 = none) := by
  induction text using pattern.induction with
  | nil => exact ⟨rfl, Or.inl rfl⟩
  | skip c rest unread _ =>
    rw [pattern.many_of_read_none _ unread]
    exact ⟨rfl, Or.inr unread⟩
  | hit first rest read inductionHypothesis =>
    obtain ⟨whole, ended⟩ := inductionHypothesis
    rw [pattern.many_append first rest read]
    refine ⟨?_, ended⟩
    show pattern.text first ++ rest = (first :: (pattern.many rest).1).flatMap pattern.text ++ _
    rw [List.flatMap_cons, List.append_assoc, ← whole]

/-- The hits of a run are read somewhere. -/
theorem exists_read_of_mem_many {pattern : Pattern α} {text : List Char} {hit : α}
    (member : hit ∈ (pattern.many text).1) : ∃ input, pattern.read? input = some hit := by
  induction text using pattern.induction with
  | nil => exact absurd member List.not_mem_nil
  | skip c rest unread _ =>
    rw [pattern.many_of_read_none _ unread] at member
    exact absurd member List.not_mem_nil
  | hit first rest read inductionHypothesis =>
    rw [pattern.many_append first rest read] at member
    rcases List.mem_cons.mp member with rfl | later
    · exact ⟨_, read⟩
    · exact inductionHypothesis later

end Pattern

end ScopedMarkup
