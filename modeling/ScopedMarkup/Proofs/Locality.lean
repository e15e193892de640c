import Mathlib.Algebra.Ring.Nat
import ScopedMarkup.Text.Split

/-!
# Cuts of joined texts

A pattern parts two joined texts if no hit that it takes goes over the join: then the cut of
the joined text is the joined cut. Two conditions on the first text are enough. It is apart
from the second one if what is read at a place in it is the same without that text, and it is
silent before it if nothing is read there at all. Neither asks anything of the places behind
the join.

Parting carries over to a text that is written from a cut: a pass to which every gap is silent
and which parts every hit from what follows edits each hit on its own and keeps the gaps.
-/

namespace ScopedMarkup

universe u v

/-- A final part of a joined text lies within the second text or reaches into the first. -/
theorem Text.suffix_append_iff {inside first second : List Char} :
    inside <:+ first ++ second ↔
      inside <:+ second ∨ ∃ inner, inside = inner ++ second ∧ inner <:+ first := by
  constructor
  · intro final
    rcases List.suffix_or_suffix_of_suffix final (List.suffix_append first second) with within | outer
    · exact Or.inl within
    · obtain ⟨inner, rfl⟩ := outer
      obtain ⟨before, joined⟩ := final
      rw [← List.append_assoc] at joined
      exact Or.inr ⟨inner, rfl, before, List.append_cancel_right joined⟩
  · rintro (within | ⟨inner, rfl, early⟩)
    · exact within.trans (List.suffix_append first second)
    · obtain ⟨before, rfl⟩ := early
      exact ⟨before, by rw [List.append_assoc]⟩

/-- A nonempty final part ends as the whole text does. -/
theorem Text.getLast?_of_suffix {inside text : List Char} (final : inside <:+ text)
    (present : inside ≠ []) : text.getLast? = inside.getLast? := by
  obtain ⟨before, rfl⟩ := final
  rw [List.getLast?_append, List.getLast?_eq_some_getLast present]
  rfl

/-- A final part ends with no character that the whole text does not end with. -/
theorem Text.getLast?_ne_of_suffix {inside text : List Char} {c : Char} (final : inside <:+ text)
    (otherwise : text.getLast? ≠ some c) : inside.getLast? ≠ some c := by
  intro ends
  have present : inside ≠ [] := by
    rintro rfl
    exact nomatch ends
  exact otherwise ((Text.getLast?_of_suffix final present).trans ends)

/-- An initial part that ends with a character which the first text does not hold goes beyond
that text. -/
theorem Text.exists_beyond {first second inside rest : List Char} {c : Char}
    (joined : first ++ second = inside ++ rest) (ends : inside.getLast? = some c)
    (absent : c ∉ first) :
    ∃ more, inside = first ++ more ∧ second = more ++ rest ∧ more.getLast? = some c := by
  rcases List.append_eq_append_iff.mp joined with ⟨more, rfl, behind⟩ | ⟨more, rfl, _⟩
  · have present : more ≠ [] := by
      rintro rfl
      rw [List.append_nil] at ends
      exact absent (List.mem_of_getLast? ends)
    refine ⟨more, rfl, behind, ?_⟩
    rw [← ends]
    exact (Text.getLast?_of_suffix (List.suffix_append first more) present).symm
  · exact absurd (List.mem_append_left more (List.mem_of_getLast? ends)) absent

/-- An initial part that ends with a character which the second text does not hold lies within
the first text. -/
theorem Text.exists_within {first second inside rest : List Char} {c : Char}
    (joined : first ++ second = inside ++ rest) (ends : inside.getLast? = some c)
    (absent : c ∉ second) : ∃ left, first = inside ++ left ∧ rest = left ++ second := by
  rcases List.append_eq_append_iff.mp joined with ⟨more, rfl, rfl⟩ | ⟨left, same, behind⟩
  · cases more with
    | nil => exact ⟨[], by simp, rfl⟩
    | cons next others =>
      rw [Text.getLast?_of_suffix (List.suffix_append _ _) (List.cons_ne_nil next others)] at ends
      exact absurd (List.mem_append_left rest (List.mem_of_getLast? ends)) absent
  · exact ⟨left, same, behind⟩

deriving instance DecidableEq for Split

namespace Split

variable {α : Type u} {β : Type v}

/-- The cut of two joined texts when no hit goes over the join: the characters behind
the last hit of the first fall into the first gap of the second. -/
def append : Split α → Split α → Split α
  | ⟨hits, tail⟩, ⟨[], behind⟩ => ⟨hits, tail ++ behind⟩
  | ⟨hits, tail⟩, ⟨(gap, hit) :: later, behind⟩ => ⟨hits ++ (tail ++ gap, hit) :: later, behind⟩

theorem append_push (c : Char) (first second : Split α) :
    (first.push c).append second = (first.append second).push c := by
  obtain ⟨hits, tail⟩ := first
  obtain ⟨others, behind⟩ := second
  cases hits <;> cases others <;> rfl

theorem append_precede (hit : α) (first second : Split α) :
    (first.precede hit).append second = (first.append second).precede hit := by
  obtain ⟨hits, tail⟩ := first
  obtain ⟨others, behind⟩ := second
  cases others <;> rfl

@[simp] theorem empty_append (split : Split α) : (⟨[], []⟩ : Split α).append split = split := by
  obtain ⟨hits, tail⟩ := split
  cases hits <;> rfl

@[simp] theorem append_empty (split : Split α) : split.append ⟨[], []⟩ = split := by
  obtain ⟨hits, tail⟩ := split
  exact congrArg _ (List.append_nil tail)

theorem append_assoc (first second third : Split α) :
    (first.append second).append third = first.append (second.append third) := by
  obtain ⟨hits, tail⟩ := first
  obtain ⟨others, behind⟩ := second
  obtain ⟨more, last⟩ := third
  cases others <;> cases more <;> simp [append]

/-- A property of hits, of the gaps before them and of the hits behind them holds throughout a cut
if it holds of the first hit and throughout the cut behind it. -/
theorem forall_hits_cons_iff {property : List Char → α → List (List Char × α) → Prop}
    {gap : List Char} {hit : α} {others : List (List Char × α)} :
    (∀ front gap' hit' back, (gap, hit) :: others = front ++ (gap', hit') :: back →
        property gap' hit' back) ↔
      property gap hit others ∧ ∀ front gap' hit' back, others = front ++ (gap', hit') :: back →
        property gap' hit' back := by
  constructor
  · intro holds
    exact ⟨holds [] gap hit others rfl, fun front gap' hit' back cutAt =>
      holds ((gap, hit) :: front) gap' hit' back (congrArg (_ :: ·) cutAt)⟩
  · rintro ⟨here, later⟩ front gap' hit' back cutAt
    cases front with
    | nil =>
      obtain ⟨same, rfl⟩ := List.cons.inj cutAt
      obtain ⟨rfl, rfl⟩ := Prod.mk.inj same
      exact here
    | cons other front => exact later front gap' hit' back (List.cons.inj cutAt).2

/-- A joined cut is written part by part. -/
theorem render_append (write : α → List Char) (first second : Split α) :
    (first.append second).render write = first.render write ++ second.render write := by
  obtain ⟨hits, tail⟩ := first
  obtain ⟨others, behind⟩ := second
  cases others <;>
    simp only [append, render, List.flatMap_append, List.flatMap_cons, List.flatMap_nil,
      List.append_assoc, List.nil_append]

/-- A joined cut has the hits of both. -/
theorem values_append (first second : Split α) :
    (first.append second).values = first.values ++ second.values := by
  obtain ⟨hits, tail⟩ := first
  obtain ⟨others, behind⟩ := second
  cases others <;>
    simp only [append, values, List.map_append, List.map_cons, List.map_nil, List.append_nil]

/-- A hit at a place of a cut is one of its values. -/
theorem mem_values_of_hits {cut : Split α} {front back : List (List Char × α)} {gap : List Char}
    {hit : α} (cutAt : cut.hits = front ++ (gap, hit) :: back) : hit ∈ cut.values := by
  rw [values, cutAt, List.map_append]
  exact List.mem_append_right _ List.mem_cons_self

/-- A cut with a hit behind a gap is written gap first. -/
theorem render_cons (write : α → List Char) (gap : List Char) (hit : α)
    (hits : List (List Char × α)) (tail : List Char) :
    (⟨(gap, hit) :: hits, tail⟩ : Split α).render write =
      gap ++ (write hit ++ (⟨hits, tail⟩ : Split α).render write) := by
  simp only [render, List.flatMap_cons, List.append_assoc]

/-- A cut is written the same by functions that agree on its hits. -/
theorem render_congr {write other : α → List Char} {split : Split α}
    (same : ∀ hit ∈ split.values, write hit = other hit) : split.render write = split.render other := by
  obtain ⟨hits, tail⟩ := split
  induction hits with
  | nil => rfl
  | cons first others inductionHypothesis =>
    obtain ⟨gap, hit⟩ := first
    rw [render_cons, render_cons, same hit List.mem_cons_self,
      inductionHypothesis fun later member => same later (List.mem_cons_of_mem _ member)]

/-- The cut in which every hit is cut further. -/
def refine (inner : β → Split α) (cut : Split β) : Split α :=
  cut.hits.foldr (fun hit behind => (⟨[], hit.1⟩ : Split α).append ((inner hit.2).append behind))
    ⟨[], cut.tail⟩

/-- A refined cut is written hit by hit. -/
theorem render_refine (write : α → List Char) (inner : β → Split α) (cut : Split β) :
    (cut.refine inner).render write = cut.render fun hit => (inner hit).render write := by
  obtain ⟨hits, tail⟩ := cut
  induction hits with
  | nil => rfl
  | cons first others inductionHypothesis =>
    rw [render_cons, ← inductionHypothesis, refine, List.foldr_cons, render_append, render_append]
    rfl

/-- A refined cut has the hits within the hits. -/
theorem values_refine (inner : β → Split α) (cut : Split β) :
    (cut.refine inner).values = cut.values.flatMap fun hit => (inner hit).values := by
  obtain ⟨hits, tail⟩ := cut
  induction hits with
  | nil => rfl
  | cons first others inductionHypothesis =>
    rw [refine, List.foldr_cons, values_append, values_append]
    exact congrArg ((inner first.2).values ++ ·) inductionHypothesis

end Split

namespace Pattern

variable {α : Type u} {β : Type v}

/-- What is read within `first` is the same without `second` behind it. -/
def Apart (pattern : Pattern α) (first second : List Char) : Prop :=
  ∀ inside, inside <:+ first → inside ≠ [] → pattern.read? (inside ++ second) = pattern.read? inside

/-- Nothing is read within `first` when `second` stands behind it. -/
def Silent (pattern : Pattern α) (first second : List Char) : Prop :=
  ∀ inside, inside <:+ first → inside ≠ [] → pattern.read? (inside ++ second) = none

/-- No hit of the joined texts goes over the join: the cut of the joined texts is the joined
cut. -/
def Parts (pattern : Pattern α) (first second : List Char) : Prop :=
  pattern.split (first ++ second) = (pattern.split first).append (pattern.split second)

instance [DecidableEq α] (pattern : Pattern α) (first second : List Char) :
    Decidable (pattern.Parts first second) :=
  inferInstanceAs (Decidable (pattern.split (first ++ second) = _))

/-- What is read within `first` with `second` behind it also ends within `first`. -/
def Within (pattern : Pattern α) (first second : List Char) : Prop :=
  ∀ inside hit, inside <:+ first → inside ≠ [] → pattern.read? (inside ++ second) = some hit →
    (pattern.text hit).length ≤ inside.length

/-- Nothing is read within the empty text. -/
theorem silent_nil (pattern : Pattern α) (behind : List Char) : pattern.Silent [] behind :=
  fun _ final present => absurd (List.suffix_nil.mp final) present

/-- A text is silent to its end if nothing is read at any of its places. -/
theorem silent_of_forall_ne {pattern : Pattern α} {text : List Char}
    (unread : ∀ inside hit, inside <:+ text → inside ≠ [] → pattern.read? inside ≠ some hit) :
    pattern.Silent text [] := by
  intro inside final present
  rw [List.append_nil]
  cases read : pattern.read? inside with
  | none => rfl
  | some hit => exact absurd read (unread inside hit final present)

theorem Apart.of_suffix {pattern : Pattern α} {first inner second : List Char}
    (apart : pattern.Apart first second) (final : inner <:+ first) : pattern.Apart inner second :=
  fun inside later present => apart inside (later.trans final) present

theorem Silent.of_suffix {pattern : Pattern α} {first inner second : List Char}
    (silent : pattern.Silent first second) (final : inner <:+ first) : pattern.Silent inner second :=
  fun inside later present => silent inside (later.trans final) present

/-- Nothing is read where the text ends. -/
theorem read_nil (pattern : Pattern α) : pattern.read? [] = none := by
  cases read : pattern.read? [] with
  | none => rfl
  | some hit =>
    obtain ⟨covered, initial⟩ := pattern.text_of_read read
    exact absurd (List.prefix_nil.mp initial) covered

/-- Nothing is read anywhere in a text that is silent to its end. -/
theorem Silent.read_none {pattern : Pattern α} {text inside : List Char}
    (silent : pattern.Silent text []) (final : inside <:+ text) : pattern.read? inside = none := by
  by_cases present : inside = []
  · rw [present, pattern.read_nil]
  · have unread := silent inside final present
    rwa [List.append_nil] at unread

/-- A silent text is cut into one gap. -/
theorem split_append_of_silent (pattern : Pattern α) (first second : List Char)
    (silent : pattern.Silent first second) :
    pattern.split (first ++ second) = (⟨[], first⟩ : Split α).append (pattern.split second) := by
  induction first with
  | nil => exact (Split.empty_append _).symm
  | cons c rest inductionHypothesis =>
    have unread : pattern.read? (c :: (rest ++ second)) = none :=
      silent (c :: rest) List.suffix_rfl (List.cons_ne_nil c rest)
    rw [List.cons_append, pattern.split_of_read_none c _ unread,
      inductionHypothesis (silent.of_suffix (List.suffix_cons c rest)), ← Split.append_push]
    rfl

/-- A text that is silent to its end is one gap. -/
theorem split_of_silent (pattern : Pattern α) {text : List Char}
    (silent : pattern.Silent text []) : pattern.split text = ⟨[], text⟩ := by
  have cut := pattern.split_append_of_silent text [] silent
  rwa [List.append_nil, split_nil, Split.append_empty] at cut

/-- A text that is silent to its end has no hits. -/
theorem values_of_silent (pattern : Pattern α) {text : List Char}
    (silent : pattern.Silent text []) : (pattern.split text).values = [] := by
  rw [pattern.split_of_silent silent]
  rfl

theorem parts_nil (pattern : Pattern α) (second : List Char) : pattern.Parts [] second :=
  (Split.empty_append _).symm

theorem parts_nil_right (pattern : Pattern α) (first : List Char) : pattern.Parts first [] := by
  unfold Parts
  rw [List.append_nil, split_nil, Split.append_empty]

/-- A character at which nothing is read may be put in front of a text that is parted. -/
theorem Parts.cons {pattern : Pattern α} {first second : List Char} {c : Char}
    (parts : pattern.Parts first second) (unread : pattern.read? (c :: first) = none)
    (unreadBehind : pattern.read? (c :: (first ++ second)) = none) :
    pattern.Parts (c :: first) second := by
  unfold Parts at parts ⊢
  rw [List.cons_append, pattern.split_of_read_none c _ unreadBehind,
    pattern.split_of_read_none c _ unread, Split.append_push, parts]

/-- A hit may be put in front of a text that is parted. -/
theorem Parts.precede {pattern : Pattern α} {first second : List Char} {hit : α}
    (parts : pattern.Parts first second)
    (read : pattern.read? (pattern.text hit ++ first) = some hit)
    (readBehind : pattern.read? (pattern.text hit ++ (first ++ second)) = some hit) :
    pattern.Parts (pattern.text hit ++ first) second := by
  unfold Parts at parts ⊢
  rw [List.append_assoc, pattern.split_append hit _ readBehind, pattern.split_append hit _ read,
    Split.append_precede, parts]

/-- Texts that are apart are parted. -/
theorem Apart.parts {pattern : Pattern α} {first second : List Char}
    (apart : pattern.Apart first second) : pattern.Parts first second := by
  induction first using pattern.induction with
  | nil => exact pattern.parts_nil second
  | skip c rest unread inductionHypothesis =>
    have same := apart (c :: rest) List.suffix_rfl (List.cons_ne_nil c rest)
    rw [unread, List.cons_append] at same
    exact Parts.cons (inductionHypothesis (apart.of_suffix (List.suffix_cons c rest))) unread same
  | hit first behind read inductionHypothesis =>
    have present : pattern.text first ++ behind ≠ [] :=
      List.append_ne_nil_of_left_ne_nil (pattern.text_of_read read).1 behind
    have same := apart _ List.suffix_rfl present
    rw [read, List.append_assoc] at same
    exact Parts.precede (inductionHypothesis (apart.of_suffix (List.suffix_append _ behind))) read same

/-- A text whose cut begins with a known one is edited accordingly. -/
theorem edit_of_split (pattern : Pattern α) (replace : α → Option (List Char))
    {text rest : List Char} {first : Split α}
    (cut : pattern.split text = first.append (pattern.split rest)) :
    pattern.edit replace text =
      ⟨first.render (fun hit => (replace hit).getD (pattern.text hit)) ++
          (pattern.edit replace rest).text,
        first.values.countP (fun hit => (replace hit).isSome) +
          (pattern.edit replace rest).places⟩ := by
  simp only [edit, cut, Split.render_append, Split.values_append, List.countP_append]

/-- A silent text is kept by an edit, and nothing in it counts as a place. -/
theorem edit_append_of_silent (pattern : Pattern α) (replace : α → Option (List Char))
    (first second : List Char) (silent : pattern.Silent first second) :
    pattern.edit replace (first ++ second) =
      ⟨first ++ (pattern.edit replace second).text, (pattern.edit replace second).places⟩ := by
  rw [pattern.edit_of_split replace (pattern.split_append_of_silent first second silent)]
  simp [Split.render, Split.values]

/-- A hit at the head of a text is edited by itself. -/
theorem edit_append_of_read (pattern : Pattern α) (replace : α → Option (List Char)) (hit : α)
    (rest : List Char) (read : pattern.read? (pattern.text hit ++ rest) = some hit) :
    pattern.edit replace (pattern.text hit ++ rest) =
      ⟨(replace hit).getD (pattern.text hit) ++ (pattern.edit replace rest).text,
        (if (replace hit).isSome then 1 else 0) + (pattern.edit replace rest).places⟩ := by
  simp only [edit, pattern.split_append hit rest read, Split.render_precede, Split.values_precede,
    List.countP_cons, Nat.add_comm]

/-- A character at which nothing is read is kept by an edit. -/
theorem edit_of_read_none (pattern : Pattern α) (replace : α → Option (List Char)) (c : Char)
    (rest : List Char) (unread : pattern.read? (c :: rest) = none) :
    pattern.edit replace (c :: rest) =
      ⟨c :: (pattern.edit replace rest).text, (pattern.edit replace rest).places⟩ := by
  simp only [edit, pattern.split_of_read_none c rest unread, Split.render_push, Split.values_push]

/-- A text that is silent to its end is kept by an edit. -/
theorem edit_of_silent (pattern : Pattern α) (replace : α → Option (List Char))
    (text : List Char) (silent : pattern.Silent text []) :
    pattern.edit replace text = ⟨text, 0⟩ := by
  have kept := pattern.edit_append_of_silent replace text [] silent
  rw [List.append_nil] at kept
  rw [kept]
  exact congrArg (Edit.mk · 0) (List.append_nil text)

/-- A text written from a cut is cut hit by hit when the gaps are silent and the hits are
parted from what is behind them. -/
theorem split_render_of_parts (pattern : Pattern α) (cut : Split β) (write : β → List Char)
    (tail : pattern.Silent cut.tail [])
    (gaps : ∀ front gap hit back, cut.hits = front ++ (gap, hit) :: back →
      pattern.Silent gap (write hit ++ (⟨back, cut.tail⟩ : Split β).render write))
    (hits : ∀ front gap hit back, cut.hits = front ++ (gap, hit) :: back →
      pattern.Parts (write hit) ((⟨back, cut.tail⟩ : Split β).render write)) :
    pattern.split (cut.render write) = cut.refine fun hit => pattern.split (write hit) := by
  obtain ⟨all, behind⟩ := cut
  induction all with
  | nil =>
    simpa [Split.render, Split.refine] using pattern.split_of_silent tail
  | cons first others inductionHypothesis =>
    obtain ⟨gap, hit⟩ := first
    obtain ⟨silent, laterGaps⟩ := Split.forall_hits_cons_iff.mp gaps
    obtain ⟨parts, laterHits⟩ := Split.forall_hits_cons_iff.mp hits
    unfold Parts at parts
    rw [Split.render_cons, pattern.split_append_of_silent gap _ silent, parts,
      inductionHypothesis tail laterGaps laterHits]
    rfl

/-- A text written from a cut is edited hit by hit when the gaps are silent and the hits
are parted from what is behind them. -/
theorem edit_render (pattern : Pattern α) (replace : α → Option (List Char)) (cut : Split β)
    (write : β → List Char) (tail : pattern.Silent cut.tail [])
    (gaps : ∀ front gap hit back, cut.hits = front ++ (gap, hit) :: back →
      pattern.Silent gap (write hit ++ (⟨back, cut.tail⟩ : Split β).render write))
    (hits : ∀ front gap hit back, cut.hits = front ++ (gap, hit) :: back →
      pattern.Parts (write hit) ((⟨back, cut.tail⟩ : Split β).render write)) :
    pattern.edit replace (cut.render write) =
      ⟨cut.render fun hit => (pattern.edit replace (write hit)).text,
        (cut.values.map fun hit => (pattern.edit replace (write hit)).places).sum⟩ := by
  simp only [edit, pattern.split_render_of_parts cut write tail gaps hits, Split.render_refine,
    Split.values_refine, List.countP_flatMap]
  rfl

/-- A cut is right if nothing is read in its gaps and every hit is read where it stands. -/
structure IsRight (pattern : Pattern α) (cut : Split α) : Prop where
  /-- Nothing is read behind the last hit. -/
  tail : pattern.Silent cut.tail []
  /-- Nothing is read in the gap before a hit. -/
  gap : ∀ front gap hit back, cut.hits = front ++ (gap, hit) :: back →
    pattern.Silent gap (pattern.text hit ++ (⟨back, cut.tail⟩ : Split α).render pattern.text)
  /-- A hit is read before the text behind it. -/
  hit : ∀ front gap hit back, cut.hits = front ++ (gap, hit) :: back →
    pattern.read? (pattern.text hit ++ (⟨back, cut.tail⟩ : Split α).render pattern.text) = some hit

theorem isRight_empty (pattern : Pattern α) : pattern.IsRight ⟨[], []⟩ where
  tail := pattern.silent_nil []
  gap front gap hit back cutAt := absurd cutAt (by simp)
  hit front gap hit back cutAt := absurd cutAt (by simp)

/-- A character at which nothing is read may be put in front. -/
theorem IsRight.push {pattern : Pattern α} {cut : Split α} (right : pattern.IsRight cut) (c : Char)
    (unread : pattern.read? (c :: cut.render pattern.text) = none) :
    pattern.IsRight (cut.push c) := by
  obtain ⟨hits, behind⟩ := cut
  cases hits with
  | nil =>
    refine ⟨?_, fun front gap hit back cutAt => absurd cutAt (by simp [Split.push]),
      fun front gap hit back cutAt => absurd cutAt (by simp [Split.push])⟩
    intro inside final present
    rcases List.suffix_cons_iff.mp final with rfl | within
    · simpa [Split.render] using unread
    · exact right.tail inside within present
  | cons first others =>
    obtain ⟨firstGap, firstHit⟩ := first
    obtain ⟨silent, silentLater⟩ := Split.forall_hits_cons_iff.mp right.gap
    refine ⟨right.tail, Split.forall_hits_cons_iff.mpr ⟨?_, silentLater⟩,
      Split.forall_hits_cons_iff.mpr (Split.forall_hits_cons_iff.mp right.hit)⟩
    intro inside final present
    rcases List.suffix_cons_iff.mp final with rfl | within
    · rw [Split.render_cons] at unread
      exact unread
    · exact silent inside within present

/-- A hit that is read may be put in front. -/
theorem IsRight.precede {pattern : Pattern α} {cut : Split α} (right : pattern.IsRight cut)
    (first : α) (read : pattern.read? (pattern.text first ++ cut.render pattern.text) = some first) :
    pattern.IsRight (cut.precede first) where
  tail := right.tail
  gap := Split.forall_hits_cons_iff.mpr ⟨pattern.silent_nil _, right.gap⟩
  hit := Split.forall_hits_cons_iff.mpr ⟨read, right.hit⟩

/-- The cut of a text is right. -/
theorem split_isRight (pattern : Pattern α) (text : List Char) :
    pattern.IsRight (pattern.split text) := by
  induction text using pattern.induction with
  | nil => exact pattern.isRight_empty
  | skip c rest unread inductionHypothesis =>
    rw [pattern.split_of_read_none c rest unread]
    exact inductionHypothesis.push c (by rw [pattern.render_split, unread])
  | hit first behind read inductionHypothesis =>
    rw [pattern.split_append first behind read]
    exact inductionHypothesis.precede first (by rw [pattern.render_split, read])

/-- A pattern occurs in a text exactly if it is read at some place. -/
theorem occursIn_iff (pattern : Pattern α) (text : List Char) : pattern.occursIn text = true ↔
    ∃ inside hit, inside <:+ text ∧ inside ≠ [] ∧ pattern.read? inside = some hit := by
  rw [occursIn, Bool.not_eq_true']
  constructor
  · intro present
    cases cut : (pattern.split text).values with
    | nil =>
      rw [Split.values, List.map_eq_nil_iff] at cut
      rw [cut] at present
      exact absurd present (by simp)
    | cons hit others =>
      obtain ⟨before, inside, rfl, read⟩ := pattern.read_of_mem_values text hit
        (by rw [cut]; exact List.mem_cons_self)
      refine ⟨inside, hit, List.suffix_append _ _, ?_, read⟩
      rintro rfl
      exact nomatch pattern.read_nil.symm.trans read
  · rintro ⟨inside, hit, final, _, read⟩
    rw [Bool.eq_false_iff]
    intro none
    have whole := pattern.render_split text
    have right := (pattern.split_isRight text).tail
    rw [Split.render, List.isEmpty_iff.mp none, List.flatMap_nil, List.nil_append] at whole
    rw [whole] at right
    exact nomatch (Silent.read_none right final).symm.trans read

/-- A pattern does not occur in a text exactly if the text is silent. -/
theorem occursIn_eq_false_iff {pattern : Pattern α} {text : List Char} :
    pattern.occursIn text = false ↔ pattern.Silent text [] := by
  constructor
  · intro absent
    refine silent_of_forall_ne fun inside hit final present read => ?_
    rw [(pattern.occursIn_iff text).mpr ⟨inside, hit, final, present, read⟩] at absent
    exact nomatch absent
  · intro silent
    rw [Bool.eq_false_iff]
    intro occurs
    obtain ⟨inside, hit, final, _, read⟩ := (pattern.occursIn_iff text).mp occurs
    exact nomatch (silent.read_none final).symm.trans read

/-- A text written from a cut is cut the same way when nothing is read in the gaps and every
hit is read as what `value` says. -/
theorem split_render (pattern : Pattern α) (cut : Split β) (write : β → List Char)
    (value : β → α) (tail : pattern.Silent cut.tail [])
    (spelled : ∀ hit ∈ cut.values, pattern.text (value hit) = write hit)
    (gaps : ∀ front gap hit back, cut.hits = front ++ (gap, hit) :: back →
      pattern.Silent gap (write hit ++ (⟨back, cut.tail⟩ : Split β).render write))
    (hits : ∀ front gap hit back, cut.hits = front ++ (gap, hit) :: back →
      pattern.read? (write hit ++ (⟨back, cut.tail⟩ : Split β).render write) = some (value hit)) :
    pattern.split (cut.render write) =
      ⟨cut.hits.map fun hit => (hit.1, value hit.2), cut.tail⟩ := by
  obtain ⟨all, behind⟩ := cut
  induction all with
  | nil =>
    simpa [Split.render] using pattern.split_of_silent tail
  | cons first others inductionHypothesis =>
    obtain ⟨gap, hit⟩ := first
    obtain ⟨silent, laterGaps⟩ := Split.forall_hits_cons_iff.mp gaps
    obtain ⟨read, laterHits⟩ := Split.forall_hits_cons_iff.mp hits
    have later := inductionHypothesis tail
      (fun hit' member => spelled hit' (List.mem_cons_of_mem _ member)) laterGaps laterHits
    have same : pattern.text (value hit) = write hit := spelled hit List.mem_cons_self
    rw [← same] at read
    rw [Split.render_cons, pattern.split_append_of_silent gap _ silent, ← same,
      pattern.split_append (value hit) _ read, later]
    simp [Split.append, Split.precede]

/-- The values of located hits are the hits. -/
theorem locate_map_value (pattern : Pattern α) (position : Position) (text : List Char) :
    (pattern.locate position text).map (·.value) = (pattern.split text).values := by
  have each : ∀ (hits : List (List Char × α)) (position : Position),
      (pattern.locateHits position hits).map (·.value) = hits.map (·.2) := by
    intro hits
    induction hits with
    | nil =>
      intro position
      rfl
    | cons first others inductionHypothesis =>
      intro position
      rw [locateHits, List.map_cons, List.map_cons, inductionHypothesis]
  exact each (pattern.split text).hits position

end Pattern

end ScopedMarkup
