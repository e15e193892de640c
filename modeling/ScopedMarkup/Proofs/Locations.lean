import Mathlib.Data.Prod.Lex
import ScopedMarkup.Proofs.Spans

/-!
# Locations of tags

A line and a column lead to one place of a source: behind so many line ends, and behind so many
more characters of the line that begins there. The location of a tag leads to where the tag begins,
and the tags of a scan have increasing locations, line before column.

Lines and columns are 32-bit words. So all of this is said of sources whose lines can be numbered
by such words, and whose lines are no longer than such a word can tell. In a longer source lines
are numbered over again, and a location may name several places.
-/

namespace ScopedMarkup

namespace Text

/-- The byte offset of the place behind so many line ends and so many more characters of the line
that begins there. There is none without these line ends or these characters. -/
def offsetOf? : Nat → Nat → List Char → Option Nat
  | 0, 0, _ => some 0
  | _, _, [] => none
  | 0, characters + 1, c :: rest =>
    if c = '\n' then none else (offsetOf? 0 characters rest).map (c.utf8Size + ·)
  | lines + 1, characters, c :: rest =>
    (offsetOf? (if c = '\n' then lines else lines + 1) characters rest).map (c.utf8Size + ·)

/-- A text without line ends is its own last line. -/
theorem lastLine_of_not_mem {text : List Char} (unended : '\n' ∉ text) : lastLine text = text := by
  refine List.rtakeWhile_eq_self_iff.mpr fun c member => ?_
  exact bne_iff_ne.mpr fun same => unended (same ▸ member)

/-- Behind a line end the last line is the one of what follows. -/
theorem lastLine_append_of_mem (front : List Char) {behind : List Char} (ended : '\n' ∈ behind) :
    lastLine (front ++ behind) = lastLine behind := by
  induction behind using List.reverseRecOn with
  | nil => exact absurd ended List.not_mem_nil
  | append_singleton more c inductionHypothesis =>
    rw [← List.append_assoc, lastLine_append_singleton, lastLine_append_singleton]
    by_cases last : c = '\n'
    · rw [if_pos last, if_pos last]
    · have within : '\n' ∈ more := by simpa [Ne.symm last] using ended
      rw [if_neg last, if_neg last, inductionHypothesis within]

/-- Characters that are no line ends go on the last line. -/
theorem lastLine_append_of_not_mem (front : List Char) {behind : List Char}
    (unended : '\n' ∉ behind) : lastLine (front ++ behind) = lastLine front ++ behind := by
  induction behind using List.reverseRecOn with
  | nil => rw [List.append_nil, List.append_nil]
  | append_singleton more c inductionHypothesis =>
    rw [List.mem_append, List.mem_singleton, not_or] at unended
    rw [← List.append_assoc, lastLine_append_singleton, if_neg (Ne.symm unended.2),
      inductionHypothesis unended.1, List.append_assoc]

/-- A line end in front is on none of the later lines. -/
theorem lastLine_lineEnd_cons (rest : List Char) : lastLine ('\n' :: rest) = lastLine rest := by
  by_cases later : '\n' ∈ rest
  · exact lastLine_append_of_mem ['\n'] later
  · rw [lastLine_of_not_mem later]
    exact lastLine_append_of_not_mem ['\n'] later

/-- The line ends before a place and the length of its line before it lead to the place. -/
theorem offsetOf?_append (front behind : List Char) :
    offsetOf? (front.count '\n') (lastLine front).length (front ++ behind) =
      some (byteLength front) := by
  induction front with
  | nil => exact offsetOf?.eq_1 _
  | cons c rest inductionHypothesis =>
    by_cases ended : c = '\n'
    · subst ended
      rw [List.count_cons_self, lastLine_lineEnd_cons, List.cons_append, offsetOf?, if_pos rfl,
        inductionHypothesis]
      rfl
    · by_cases later : '\n' ∈ rest
      · -- A line end follows, so the walk passes `c` on its way there.
        obtain ⟨lines, counted⟩ : ∃ lines, rest.count '\n' = lines + 1 :=
          ⟨rest.count '\n' - 1, by have := List.count_pos_iff.mpr later; omega⟩
        have same : lastLine (c :: rest) = lastLine rest := lastLine_append_of_mem [c] later
        rw [counted] at inductionHypothesis
        rw [List.count_cons_of_ne ended, counted, same, List.cons_append, offsetOf?,
          if_neg ended, inductionHypothesis]
        rfl
      · have unended : '\n' ∉ c :: rest := by simp [later, Ne.symm ended]
        rw [List.count_eq_zero.mpr later, lastLine_of_not_mem later] at inductionHypothesis
        rw [List.count_eq_zero.mpr unended, lastLine_of_not_mem unended, List.length_cons,
          List.cons_append, offsetOf?, if_neg ended, inductionHypothesis]
        rfl

/-- The line ends of a text and the length of its last line, the former counting first. -/
def extent (text : List Char) : ℕ ×ₗ ℕ := toLex (text.count '\n', (lastLine text).length)

/-- A text grows in line ends, or else in its last line. -/
theorem extent_lt_append (front : List Char) {more : List Char} (present : more ≠ []) :
    extent front < extent (front ++ more) := by
  rw [extent, extent, Prod.Lex.toLex_lt_toLex, List.count_append]
  by_cases ended : '\n' ∈ more
  · have counted := List.count_pos_iff.mpr ended
    exact Or.inl (by show front.count '\n' < front.count '\n' + more.count '\n'; omega)
  · have long := List.length_pos_iff.mpr present
    refine Or.inr ⟨by rw [List.count_eq_zero.mpr ended, Nat.add_zero], ?_⟩
    show (lastLine front).length < (lastLine (front ++ more)).length
    rw [lastLine_append_of_not_mem front ended, List.length_append]
    omega

/-- Of two initial parts the one with fewer bytes has the lesser extent. -/
theorem extent_lt_of_byteLength_lt {first second text : List Char} (initial : first <+: text)
    (initial' : second <+: text) (less : byteLength first < byteLength second) :
    extent first < extent second := by
  obtain ⟨more, rfl⟩ := prefix_of_byteLength_le initial initial' (Nat.le_of_lt less)
  refine extent_lt_append first ?_
  rintro rfl
  rw [List.append_nil] at less
  exact Nat.lt_irrefl _ less

/-- The lines of a text can be numbered by 32-bit words, and so can the characters of each. -/
structure Numberable (text : List Char) : Prop where
  /-- The lines are one more than the line ends. -/
  lines : text.count '\n' + 1 < UInt32.size
  /-- No part without a line end is too long. -/
  columns : ∀ part, part <:+: text → '\n' ∉ part → part.length < UInt32.size

/-- So it is with every text that is not long itself. -/
theorem numberable_of_length_lt {text : List Char} (short : text.length + 1 < UInt32.size) :
    Numberable text := by
  refine ⟨Nat.lt_of_le_of_lt (Nat.succ_le_succ List.count_le_length) short, ?_⟩
  intro part within _
  have most := within.length_le
  omega

end Text

namespace SourceLocation

/-- The line and the column, the line counting first. -/
def rank (location : SourceLocation) : ℕ ×ₗ ℕ :=
  toLex (location.line.toNat, location.column.toNat)

/-- The byte offset of the place of a source to which a location leads. Lines and columns count
from one. -/
def offsetIn? (source : List Char) (location : SourceLocation) : Option Nat :=
  match location.line.toNat, location.column.toNat with
  | lines + 1, characters + 1 => Text.offsetOf? lines characters source
  | _, _ => none

end SourceLocation

namespace Text.Numberable

variable {source : List Char} (numberable : Text.Numberable source)
include numberable

/-- Where a character other than a line end stands, the line and the column are told by what
stands before it. -/
theorem location_toNat {before behind : List Char} {c : Char}
    (joined : source = before ++ c :: behind) (other : c ≠ '\n') :
    (Position.start.after before).line.toNat = before.count '\n' + 1 ∧
      (Position.start.after before).column.toNat = (Text.lastLine before).length + 1 := by
  have lines : before.count '\n' + 1 < UInt32.size := by
    have most := numberable.lines
    rw [joined, List.count_append] at most
    omega
  have columns : (Text.lastLine before).length + 1 < UInt32.size := by
    -- The line goes on with the character, so both are part of one line.
    have part : Text.lastLine before ++ [c] <:+: source := by
      obtain ⟨front, cut⟩ : Text.lastLine before <:+ before := List.rtakeWhile_suffix _ _
      refine ⟨front, behind, ?_⟩
      rw [← List.append_assoc, cut, joined, List.append_assoc, List.singleton_append]
    have unended : '\n' ∉ Text.lastLine before ++ [c] := by
      rw [List.mem_append, List.mem_singleton, not_or]
      refine ⟨fun member => ?_, Ne.symm other⟩
      exact absurd (List.mem_rtakeWhile_imp member) (by decide)
    simpa using numberable.columns _ part unended
  rw [Position.after_eq]
  constructor
  · show (1 + UInt32.ofNat _ : UInt32).toNat = _
    rw [UInt32.toNat_add, UInt32.toNat_one, UInt32.toNat_ofNat']
    unfold UInt32.size at lines
    omega
  · show ((if _ then 1 else 1) + UInt32.ofNat _ : UInt32).toNat = _
    rw [ite_self, UInt32.toNat_add, UInt32.toNat_one, UInt32.toNat_ofNat']
    unfold UInt32.size at columns
    omega

/-- A scanned tag stands behind an initial part of the source, whose extent is its location. -/
theorem exists_before_of_scanned {found : Located Tag} (scanned : found ∈ scanTags source) :
    ∃ before behind, source = before ++ (found.value.text ++ behind) ∧
      Text.byteLength before = found.position.offset ∧
        found.position.location.line.toNat = before.count '\n' + 1 ∧
          found.position.location.column.toNat = (Text.lastLine before).length + 1 := by
  obtain ⟨before, behind, joined, _, placed⟩ := Pattern.exists_around_of_mem_locate scanned
  refine ⟨before, behind, joined, ?_, ?_⟩
  · rw [placed, Position.offset_after]
    exact (Nat.zero_add _).symm
  · rw [placed]
    have begins : source = before ++ '<' :: (found.value.name ++ found.value.rest ++ behind) := by
      rw [joined]
      show before ++ (found.value.text ++ behind) = _
      rw [Tag.text_eq_head_append]
      rfl
    exact numberable.location_toNat begins (by decide)

/-- The location of a scanned tag leads to where the tag begins. -/
theorem offsetIn?_of_scanned {found : Located Tag} (scanned : found ∈ scanTags source) :
    found.position.location.offsetIn? source = some found.position.offset := by
  obtain ⟨before, behind, joined, bytes, lines, columns⟩ :=
    numberable.exists_before_of_scanned scanned
  rw [SourceLocation.offsetIn?, lines, columns, ← bytes]
  show Text.offsetOf? _ _ source = _
  rw [joined]
  exact Text.offsetOf?_append before _

/-- Of two scanned tags the one that begins first has the lesser location. -/
theorem rank_lt_of_offset_lt {first second : Located Tag} (scanned : first ∈ scanTags source)
    (scanned' : second ∈ scanTags source) (less : first.position.offset < second.position.offset) :
    first.position.location.rank < second.position.location.rank := by
  obtain ⟨before, _, joined, bytes, lines, columns⟩ := numberable.exists_before_of_scanned scanned
  obtain ⟨before', _, joined', bytes', lines', columns'⟩ :=
    numberable.exists_before_of_scanned scanned'
  have initial : before <+: source := ⟨_, joined.symm⟩
  have initial' : before' <+: source := ⟨_, joined'.symm⟩
  have grows : Text.extent before < Text.extent before' := by
    refine Text.extent_lt_of_byteLength_lt initial initial' ?_
    rwa [bytes, bytes']
  rw [Text.extent, Text.extent, Prod.Lex.toLex_lt_toLex] at grows
  rw [SourceLocation.rank, SourceLocation.rank, Prod.Lex.toLex_lt_toLex, lines, columns, lines',
    columns']
  show _ < _ ∨ _ = _ ∧ _ < _
  simp only at grows ⊢
  omega

/-- The locations of a scan increase. -/
theorem pairwise_rank : (scanTags source).Pairwise fun first second =>
    first.position.location.rank < second.position.location.rank := by
  refine (Tag.pattern.pairwise_locate Position.start source).imp_of_mem ?_
  intro first second scanned scanned' apart
  have begins := Pattern.start_lt_stopOf scanned
  exact numberable.rank_lt_of_offset_lt scanned scanned' (by omega)

end Text.Numberable

end ScopedMarkup
