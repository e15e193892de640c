import ScopedMarkup.Proofs.Passes

/-!
# Texts written from a cut

A text is written from a cut if it keeps the gaps and has some text for each hit. How the
texts of the hits are delimited is not fixed by that: a text may be written from one cut in
several ways. But there is only one way if the number of places where tags start is the number
of hits and every hit starts a tag, for then each hit begins at one of these places.
-/

namespace ScopedMarkup

universe u

/-- A text that keeps the gaps of a cut and what stands behind the last hit. In place of each
hit it has a text of which `shape` holds, together with the text that stands behind it. -/
inductive Split.Written {α : Type u} (shape : α → List Char → List Char → Prop) :
    Split α → List Char → Prop where
  | tail (behind : List Char) : Written shape ⟨[], behind⟩ behind
  | hit (gap written behind tail : List Char) (value : α) (others : List (List Char × α))
      (shaped : shape value written behind) (later : Written shape ⟨others, tail⟩ behind) :
      Written shape ⟨(gap, value) :: others, tail⟩ (gap ++ (written ++ behind))

namespace Split

variable {α : Type u} {shape : α → List Char → List Char → Prop}

/-- A cut is written by a function if every hit is in shape where it stands. -/
theorem written_render (cut : Split α) (write : α → List Char)
    (shaped : ∀ front gap hit back, cut.hits = front ++ (gap, hit) :: back →
      shape hit (write hit) ((⟨back, cut.tail⟩ : Split α).render write)) :
    cut.Written shape (cut.render write) := by
  obtain ⟨hits, tail⟩ := cut
  induction hits with
  | nil => exact .tail tail
  | cons first others inductionHypothesis =>
    obtain ⟨gap, hit⟩ := first
    obtain ⟨here, later⟩ := forall_hits_cons_iff.mp shaped
    rw [render_cons]
    exact .hit gap (write hit) _ tail hit others here (inductionHypothesis later)

/-- What is written in one shape is written in any other that follows from it. -/
theorem Written.imp {other : α → List Char → List Char → Prop} {cut : Split α} {text : List Char}
    (written : cut.Written shape text)
    (weaker : ∀ hit ∈ cut.values, ∀ part behind, shape hit part behind → other hit part behind) :
    cut.Written other text := by
  induction written with
  | tail behind => exact .tail behind
  | hit gap part behind tail value others shaped later inductionHypothesis =>
    refine .hit gap part behind tail value others
      (weaker value List.mem_cons_self part behind shaped) ?_
    exact inductionHypothesis fun hit member => weaker hit (List.mem_cons_of_mem _ member)

/-- What stands behind the last hit ends the text. -/
theorem Written.tail_suffix {cut : Split α} {text : List Char} (written : cut.Written shape text) :
    cut.tail <:+ text := by
  induction written with
  | tail behind => exact List.suffix_rfl
  | hit gap part behind tail value others shaped later inductionHypothesis =>
    rw [← List.append_assoc]
    exact inductionHypothesis.trans (List.suffix_append _ _)

end Split

namespace Text

/-- At how many places of a text a tag starts. -/
def tagStarts : List Char → Nat
  | [] => 0
  | c :: rest => (if startsTag (c :: rest) then 1 else 0) + tagStarts rest

/-- A text from the first place on where a tag starts. -/
def fromTagStart : List Char → List Char
  | [] => []
  | c :: rest => if startsTag (c :: rest) then c :: rest else fromTagStart rest

theorem startsTag_append_of_starts {text : List Char} (start : startsTag text = true)
    (behind : List Char) : startsTag (text ++ behind) = true := by
  obtain ⟨kind, starts⟩ := startsTag_iff.mp start
  obtain ⟨c, rest, rfl, initial⟩ := TagKind.starts_iff.mp starts
  exact startsTag_iff.mpr ⟨kind, initial⟩

theorem headIsNoLetter_of_starts {text : List Char} (start : startsTag text = true)
    (behind : List Char) : headIsNoLetter (text ++ behind) = true := by
  obtain ⟨kind, starts⟩ := startsTag_iff.mp start
  obtain ⟨c, rest, rfl, _⟩ := TagKind.starts_iff.mp starts
  rfl

theorem fromTagStart_of_starts {text : List Char} (start : startsTag text = true) :
    fromTagStart text = text := by
  cases text with
  | nil => rfl
  | cons c rest => rw [fromTagStart, if_pos start]

theorem tagStarts_le_append (front behind : List Char) :
    tagStarts behind ≤ tagStarts (front ++ behind) := by
  induction front with
  | nil => exact Nat.le_refl _
  | cons c rest inductionHypothesis =>
    rw [List.cons_append, tagStarts]
    omega

/-- A text that starts a tag has one more start than what stands behind it. -/
theorem tagStarts_lt_append {text : List Char} (start : startsTag text = true)
    (behind : List Char) : tagStarts behind < tagStarts (text ++ behind) := by
  have longer := startsTag_append_of_starts start behind
  cases text with
  | nil => simp [startsTag] at start
  | cons c rest =>
    have later := tagStarts_le_append rest behind
    rw [List.cons_append] at longer ⊢
    rw [tagStarts, if_pos longer]
    omega

/-- If nothing starts at the places of a text, it adds no starts, and the first one is found
behind it. -/
theorem tagStarts_append_of_silent {front behind : List Char}
    (silent : ∀ inside, inside <:+ front → inside ≠ [] → startsTag (inside ++ behind) = false) :
    tagStarts (front ++ behind) = tagStarts behind ∧
      fromTagStart (front ++ behind) = fromTagStart behind := by
  induction front with
  | nil => exact ⟨rfl, rfl⟩
  | cons c rest inductionHypothesis =>
    have here : startsTag (c :: (rest ++ behind)) = false :=
      silent (c :: rest) List.suffix_rfl (List.cons_ne_nil _ _)
    obtain ⟨counted, found⟩ := inductionHypothesis fun inside final =>
      silent inside (final.trans (List.suffix_cons c rest))
    rw [List.cons_append, tagStarts, fromTagStart, here, counted, found]
    simp

/-- If a text adds no starts, the first one is found behind it. -/
theorem fromTagStart_append {front behind : List Char}
    (none : tagStarts (front ++ behind) = tagStarts behind) :
    fromTagStart (front ++ behind) = fromTagStart behind := by
  induction front with
  | nil => rfl
  | cons c rest inductionHypothesis =>
    have later := tagStarts_le_append rest behind
    rw [List.cons_append, tagStarts] at none
    rw [List.cons_append, fromTagStart]
    split
    · rename_i here
      rw [if_pos here] at none
      omega
    · exact inductionHypothesis (by omega)

/-- Of two texts with as many starts of which one is a final part of the other, the first
start is the same. -/
theorem fromTagStart_eq {first second : List Char}
    (comparable : first <:+ second ∨ second <:+ first)
    (counted : tagStarts first = tagStarts second) : fromTagStart first = fromTagStart second := by
  rcases comparable with ⟨front, rfl⟩ | ⟨front, rfl⟩
  · exact (fromTagStart_append counted.symm).symm
  · exact fromTagStart_append counted

end Text

/-- A lone text starts one tag, whatever stands behind it. -/
theorem Lone.tagStarts_append {kind : TagKind} {text : List Char} (lone : Lone kind text)
    (behind : List Char) : Text.tagStarts (text ++ behind) = Text.tagStarts behind + 1 := by
  have start := Text.startsTag_append_of_starts (Text.startsTag_iff.mpr ⟨kind, lone.starts⟩) behind
  have silent : ∀ inside, inside <:+ text.drop 1 → inside ≠ [] →
      Text.startsTag (inside ++ behind) = false :=
    fun _ final present => lone.startsTag_tail behind final present
  obtain ⟨c, rest, rfl, _⟩ := TagKind.starts_iff.mp lone.starts
  have behindHead := (Text.tagStarts_append_of_silent silent).1
  rw [List.drop_one, List.tail_cons] at behindHead
  rw [List.cons_append] at start ⊢
  rw [Text.tagStarts, if_pos start, behindHead, Nat.add_comm]

namespace Split.Written

variable {shape : Tag → List Char → List Char → Prop}

/-- A text written from a cut has a start for each hit that starts a tag. -/
theorem length_le {cut : Split Tag} {text : List Char} (written : cut.Written shape text)
    (starts : ∀ tag part behind, shape tag part behind → Text.startsTag part = true) :
    cut.hits.length ≤ Text.tagStarts text := by
  induction written with
  | tail behind => exact Nat.zero_le _
  | hit gap part behind tail value others shaped later inductionHypothesis =>
    have more := Text.tagStarts_lt_append (starts value part behind shaped) behind
    have kept := Text.tagStarts_le_append gap (part ++ behind)
    have counted : others.length ≤ Text.tagStarts behind := inductionHypothesis
    show others.length + 1 ≤ Text.tagStarts (gap ++ (part ++ behind))
    omega

end Split.Written

namespace Tidy

variable {hits : List (List Char × Tag)} {tail gap : List Char} {tag : Tag}

/-- What stands behind a tag of a tidy cut is tidy. -/
theorem of_cons (tidy : Tidy ⟨(gap, tag) :: hits, tail⟩) : Tidy ⟨hits, tail⟩ where
  gaps hit member := tidy.gaps hit (List.mem_cons_of_mem _ member)
  tail := tidy.tail
  settled other member := tidy.settled other (List.mem_cons_of_mem _ member)
  single other member := tidy.single other (List.mem_cons_of_mem _ member)

/-- No tag starts in a gap before a text that starts one. -/
theorem silent_gap (tidy : Tidy ⟨(gap, tag) :: hits, tail⟩) {text : List Char}
    (start : Text.startsTag text = true) (behind : List Char) :
    Text.tagStarts (gap ++ (text ++ behind)) = Text.tagStarts (text ++ behind) ∧
      Text.fromTagStart (gap ++ (text ++ behind)) = text ++ behind := by
  have silent : ∀ inside, inside <:+ gap → inside ≠ [] →
      Text.startsTag (inside ++ (text ++ behind)) = false :=
    fun _ final present => Text.startsTag_append (tidy.gaps (gap, tag) List.mem_cons_self) final
      present (Text.headIsNoLetter_of_starts start behind)
  have found := Text.tagStarts_append_of_silent silent
  rw [Text.fromTagStart_of_starts (Text.startsTag_append_of_starts start behind)] at found
  exact found

/-- A tidy cut that is written by lone texts has a start for each tag. -/
theorem tagStarts_render {cut : Split Tag} (tidy : Tidy cut) (write : Tag → List Char)
    (lone : ∀ tag ∈ cut.values, Lone tag.kind (write tag)) :
    Text.tagStarts (cut.render write) = cut.hits.length := by
  obtain ⟨hits, tail⟩ := cut
  induction hits with
  | nil =>
    have silent : ∀ inside, inside <:+ tail → inside ≠ [] →
        Text.startsTag (inside ++ []) = false :=
      fun _ final present => Text.startsTag_append tidy.tail final present rfl
    have none := (Text.tagStarts_append_of_silent silent).1
    rw [List.append_nil] at none
    exact none
  | cons first others inductionHypothesis =>
    obtain ⟨gap, tag⟩ := first
    have here := lone tag List.mem_cons_self
    have start := Text.startsTag_iff.mpr ⟨_, here.starts⟩
    rw [Split.render_cons, (tidy.silent_gap start _).1, here.tagStarts_append,
      inductionHypothesis tidy.of_cons fun other member => lone other (List.mem_cons_of_mem _ member)]
    rfl

/-- Of two texts written from a tidy cut, one with a start for each tag and the other by lone
texts, none is a proper final part of the other. -/
theorem eq_render {shape : Tag → List Char → List Char → Prop} {cut : Split Tag} (tidy : Tidy cut)
    {write : Tag → List Char} (lone : ∀ tag ∈ cut.values, Lone tag.kind (write tag))
    (starts : ∀ tag part behind, shape tag part behind → Text.startsTag part = true)
    {text : List Char} (written : cut.Written shape text)
    (counted : Text.tagStarts text ≤ cut.hits.length)
    (comparable : text <:+ cut.render write ∨ cut.render write <:+ text) :
    text = cut.render write := by
  induction written with
  | tail behind => rfl
  | hit gap part behind tail tag others shaped later inductionHypothesis =>
    have here := lone tag List.mem_cons_self
    have start := starts tag part behind shaped
    have startRendered := Text.startsTag_iff.mpr ⟨_, here.starts⟩
    have enough := (Split.Written.hit gap part behind tail tag others shaped later).length_le starts
    have all := tidy.tagStarts_render write lone
    have same := Text.fromTagStart_eq comparable (by rw [all]; exact Nat.le_antisymm counted enough)
    rw [Split.render_cons, (tidy.silent_gap start behind).2,
      (tidy.silent_gap startRendered _).2] at same
    have fewer := Text.tagStarts_lt_append start behind
    have kept := Text.tagStarts_le_append gap (part ++ behind)
    have countedBehind : Text.tagStarts behind ≤ others.length := by
      have bound : Text.tagStarts (gap ++ (part ++ behind)) ≤ others.length + 1 := counted
      omega
    have sameBehind := inductionHypothesis tidy.of_cons
      (fun other member => lone other (List.mem_cons_of_mem _ member)) countedBehind
      (List.suffix_or_suffix_of_suffix (List.suffix_append part behind)
        (same ▸ List.suffix_append (write tag) _))
    rw [Split.render_cons, same]

/-- A text that is written from a tidy cut by lone texts is written from it in no other way,
as long as every hit starts a tag. -/
theorem shape_of_written {shape : Tag → List Char → List Char → Prop} {cut : Split Tag}
    (tidy : Tidy cut) {write : Tag → List Char}
    (lone : ∀ tag ∈ cut.values, Lone tag.kind (write tag))
    (starts : ∀ tag part behind, shape tag part behind → Text.startsTag part = true)
    (written : cut.Written shape (cut.render write)) :
    ∀ front gap tag back, cut.hits = front ++ (gap, tag) :: back →
      shape tag (write tag) ((⟨back, cut.tail⟩ : Split Tag).render write) := by
  obtain ⟨hits, tail⟩ := cut
  induction hits with
  | nil =>
    intro front gap tag back cutAt
    exact absurd cutAt (by simp)
  | cons first others inductionHypothesis =>
    obtain ⟨gap, tag⟩ := first
    have here := lone tag List.mem_cons_self
    have lonely : ∀ other ∈ (⟨others, tail⟩ : Split Tag).values, Lone other.kind (write other) :=
      fun other member => lone other (List.mem_cons_of_mem _ member)
    have all := tidy.of_cons.tagStarts_render write lonely
    generalize whole : (⟨(gap, tag) :: others, tail⟩ : Split Tag).render write = text at written
    cases written with
    | hit _ part behind _ _ _ shaped later =>
      rw [Split.render_cons] at whole
      have joined := List.append_cancel_left whole
      have fewer := Text.tagStarts_lt_append (starts tag part behind shaped) behind
      rw [← joined, here.tagStarts_append, all] at fewer
      have sameBehind := tidy.of_cons.eq_render lonely starts later (Nat.le_of_lt_succ fewer)
        (List.suffix_or_suffix_of_suffix (List.suffix_append part behind)
          (joined ▸ List.suffix_append (write tag) _))
      rw [sameBehind] at joined shaped later
      have samePart := List.append_cancel_right joined
      refine Split.forall_hits_cons_iff.mpr ⟨?_, inductionHypothesis tidy.of_cons lonely later⟩
      rw [samePart]
      exact shaped

end Tidy

end ScopedMarkup
