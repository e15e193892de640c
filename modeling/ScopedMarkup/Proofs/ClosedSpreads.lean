import Mathlib.Data.List.Infix
import ScopedMarkup.Proofs.TornNames

/-!
# Tags that close their spreads

A flat tag goes over the end of the tag it begins in only by a spread that is opened in the tag
and not closed there. So if each tag of a source meets a `}` behind every spread that is opened
in it, be it a spread of the scan or not, the passes are confined to the tags. This is seen at
the source itself: the attributes of scoping close what they open, and a removal takes no `}`
away that a spread in front of it would need, for such a spread would have been removed as well.

It also keeps names from being torn. Only exempt tags have to be told apart, since diagnostics
do not look at them. What the passes make of an exempt tag is known if it holds no flat spread.
-/

namespace ScopedMarkup

namespace CssSpread

/-- Every spread that is opened in a text meets a `}` there. -/
def Closes (text : List Char) : Prop := ∀ inside, inside <:+ text → Opens inside → '}' ∈ inside

/-- Whether a text closes its spreads is decided at its final parts. -/
theorem closes_iff_tails {text : List Char} :
    Closes text ↔ ∀ inside ∈ text.tails, Opens inside → '}' ∈ inside := by
  simp only [Closes, List.mem_tails]

instance : DecidablePred Closes := fun _ => decidable_of_iff _ closes_iff_tails.symm

theorem Closes.of_suffix {inner text : List Char} (closes : Closes text) (final : inner <:+ text) :
    Closes inner :=
  fun inside later opens => closes inside (later.trans final) opens

/-- Texts that close their spreads do so joined, if the first one is sealed. -/
theorem Closes.append {first second : List Char} (closes : Closes first) (shut : Sealed first)
    (closesBehind : Closes second) : Closes (first ++ second) := by
  intro inside final opens
  rcases Text.suffix_append_iff.mp final with within | ⟨inner, rfl, early⟩
  · exact closesBehind inside within opens
  · cases inner with
    | nil => exact closesBehind second List.suffix_rfl opens
    | cons c rest =>
      have alone := shut.opens early (List.cons_ne_nil c rest) opens
      exact List.mem_append_left second (closes _ early alone)

/-- A text that ends with `}` closes its spreads. -/
theorem closes_of_getLast {text : List Char} (ends : text.getLast? = some '}') : Closes text := by
  intro inside final opens
  obtain ⟨rest, rfl⟩ := opens.eq_cons
  refine List.mem_of_getLast? ?_
  rw [← Text.getLast?_of_suffix final (List.cons_ne_nil _ _)]
  exact ends

/-- A text that closes its spreads, and ends as tags do, is apart from what follows. -/
theorem Closes.apart {text : List Char} (closes : Closes text) (ends : text.getLast? = some '>')
    (behind : List Char) : pattern.Apart text behind := by
  intro inside final present
  show read? (inside ++ behind) = read? inside
  cases read : read? (inside ++ behind) with
  | none =>
    cases alone : read? inside with
    | none => rfl
    | some spread =>
      rw [read_append alone behind] at read
      simp at read
  | some spread =>
    have insideEnds : inside.getLast? = some '>' := by
      rw [← Text.getLast?_of_suffix final present]
      exact ends
    have opens := opens_of_append insideEnds (opens_of_read read)
    exact (read_of_mem read (closes inside final opens)).symm

end CssSpread

/-- What remains of quiet pieces closes its spreads if the pieces did. A spread that is opened
before a removed piece is closed there. -/
theorem Piece.closes_remaining {pieces : List Piece} {tail : List Char}
    (settled : ∀ piece ∈ pieces, piece.Settled) (quiet : Quiet pieces tail) (pending : List Char)
    (shut : CssSpread.Sealed pending)
    (silent : CssSpread.pattern.Silent pending (pieces.flatMap text ++ tail))
    (closes : CssSpread.Closes (pending ++ (pieces.flatMap text ++ tail))) :
    CssSpread.Closes (remaining isFlat pending pieces ++ tail) := by
  induction pieces generalizing pending with
  | nil => simpa [remaining] using closes
  | cons piece rest inductionHypothesis =>
    have settledRest : ∀ other ∈ rest, other.Settled :=
      fun other member => settled other (List.mem_cons_of_mem _ member)
    rw [List.flatMap_cons, List.append_assoc] at silent closes
    by_cases flat : piece.isFlat = true
    · have behind : CssSpread.Closes (rest.flatMap text ++ tail) :=
        (closes.of_suffix (List.suffix_append _ _)).of_suffix (List.suffix_append _ _)
      have later := inductionHypothesis settledRest quiet.of_cons [] CssSpread.sealed_nil
        (Pattern.silent_nil _ _) behind
      have removes := isSome_read_of_isFlat flat (rest.flatMap text ++ tail)
      have front : CssSpread.Closes (Text.trimEnd pending) := fun _ final opens =>
        CssSpread.brace_mem_of_silent silent removes final opens
      rw [remaining, if_pos flat, List.append_assoc]
      exact front.append shut.trimEnd later
    · have kept : piece.isFlat = false := Bool.eq_false_iff.mpr flat
      have here := quiet [] piece rest rfl kept
      rw [← List.append_assoc] at closes
      rw [remaining, if_neg flat]
      exact inductionHypothesis settledRest quiet.of_cons _
        ((settled piece List.mem_cons_self).sealed shut) (silent.append here) closes

namespace Tag

variable {tag : Tag} {ids : InstanceIds}

/-- An attribute behind the head leaves a tag closing its spreads. -/
theorem closes_binding (closes : CssSpread.Closes tag.text) (ids : InstanceIds) (forwarding : Bool) :
    CssSpread.Closes (tag.head ++ tag.binding ids forwarding ++ tag.rest) := by
  rw [text_eq_head_append] at closes
  by_cases gets : tag.isScoped = true
  · have ends := scopedHead_getLast gets ids forwarding
    exact (CssSpread.closes_of_getLast ends).append
      (CssSpread.sealed_of_getLast ends (by decide) (by decide))
      (closes.of_suffix (List.suffix_append _ _))
  · rwa [binding, if_neg gets, List.append_nil]

/-- What remains of a tag without faults closes its spreads if the tag does. -/
theorem Orderly.closes_kept (orderly : tag.Orderly) (closes : CssSpread.Closes tag.text)
    {forwarding : Bool}
    (silent : CssSpread.pattern.Silent (tag.head ++ tag.binding ids forwarding) tag.rest) :
    CssSpread.Closes (tag.head ++ tag.binding ids forwarding ++ tag.keptRest) := by
  have whole := closes_binding closes ids forwarding
  obtain ⟨pending, pieces, settled, quiet, shut, unread, all, kept⟩ := orderly.exists_pending silent
  rw [all] at whole
  rw [kept]
  exact Piece.closes_remaining settled quiet pending shut unread whole

/-- So does the tag as the pass over elements leaves it. -/
theorem Orderly.closes_elementForwarded (orderly : tag.Orderly)
    (closes : CssSpread.Closes tag.text) (avoids : ids.Avoids ['<', '>', '{', '}']) :
    CssSpread.Closes (tag.elementForwarded ids) := by
  rw [orderly.elementForwarded_eq avoids]
  by_cases element : tag.kind = .element
  · have silent := orderly.silent_front_element avoids element (tag.isForwarded ids)
    rw [if_pos element]
    exact orderly.closes_kept closes silent
  · rw [if_neg element]
    exact closes_binding closes ids false

/-- A tag that is exempt and holds no flat spread is left as it is. -/
theorem elementForwarded_of_isExempt (exempt : tag.isExempt = true)
    (silent : CssSpread.pattern.Silent tag.text []) (ids : InstanceIds) :
    tag.elementForwarded ids = tag.text := by
  have written : tag.scopedText ids = tag.text := by
    rw [scopedText, binding, if_neg (by simp [isScoped, exempt]), List.append_nil,
      ← text_eq_head_append]
  rw [elementForwarded, written, forwardScope_of_silent .element silent]

/-- The name of a tag without faults is not torn if the tag closes its spreads. -/
theorem Accepted.untorn_of_closes (accepted : tag.Accepted) (closes : CssSpread.Closes tag.text) :
    ¬tag.TearsName := by
  intro torn
  have braceless := accepted.brace_not_mem_rest torn
  obtain ⟨_, before, body, named, unclosed, _⟩ := torn
  obtain ⟨front, spelled⟩ := suffix_head_of_name named
  have closed : '}' ∈ '{' :: '.' :: '.' :: '.' :: body ++ tag.rest := by
    refine closes _ ⟨front, ?_⟩ ⟨[], body ++ tag.rest, rfl, by simp⟩
    rw [text_eq_head_append, ← spelled, List.append_assoc]
  rcases List.mem_append.mp closed with inName | behind
  · exact unclosed (by simpa using inName)
  · exact braceless behind

end Tag

/-- Texts that close their spreads confine the flat tags that begin in them. -/
theorem Split.confines_of_closes {cut : Split Tag} (kind : TagKind) {write : Tag → List Char}
    (ends : ∀ tag ∈ cut.values, (write tag).getLast? = some '>')
    (closes : ∀ tag ∈ cut.values, CssSpread.Closes (write tag)) :
    cut.Confines (ForwardingTag.pattern kind) write := by
  intro front gap tag back cutAt
  have member := Split.mem_values_of_hits cutAt
  have apart := (closes tag member).apart (ends tag member)
  exact (ForwardingTag.apart_of_within
    (ForwardingTag.within_of_apart (ends tag member) (apart _))).parts

/-- On a source without diagnostics whose tags close their spreads, and whose exempt tags hold no
flat spread, the passes are confined to the tags and no name is torn. -/
theorem confined_of_closes {ids : InstanceIds} {file : String} {source : List Char}
    (accepted : diagnose ids file source = []) (tidy : Tidy (Tag.pattern.split source))
    (avoids : ids.Avoids ['<', '>', '{', '}'])
    (closes : ∀ found ∈ scanTags source, CssSpread.Closes found.value.text)
    (exempt : ∀ found ∈ scanTags source, found.value.isExempt = true →
      CssSpread.pattern.Silent found.value.text []) :
    Confined ids (Tag.pattern.split source) ∧
      ∀ found ∈ scanTags source, ¬found.value.TearsName := by
  have untorn : ∀ found ∈ scanTags source, ¬found.value.TearsName := by
    intro found scanned torn
    have faultless := Tag.accepted_of_faults (faults_of_diagnose accepted found scanned)
      torn.unexempt (tidy.settled _ (mem_values_of_scanned scanned))
    exact faultless.untorn_of_closes (closes found scanned) torn
  have closesForwarded : ∀ tag ∈ (Tag.pattern.split source).values,
      CssSpread.Closes (tag.elementForwarded ids) := by
    intro tag member
    obtain ⟨found, scanned, rfl⟩ := exists_scanned member
    cases kept : found.value.isExempt with
    | true =>
      rw [Tag.elementForwarded_of_isExempt kept (exempt found scanned kept)]
      exact closes found scanned
    | false =>
      exact (orderly_of_diagnose accepted scanned (tidy.settled _ member) (tidy.single _ member)
        kept (untorn found scanned)).closes_elementForwarded (closes found scanned) avoids
  have closesScoped : ∀ tag ∈ (Tag.pattern.split source).values,
      CssSpread.Closes (tag.scopedText ids) := by
    intro tag member
    obtain ⟨found, scanned, rfl⟩ := exists_scanned member
    exact Tag.closes_binding (closes found scanned) ids false
  have ends : ∀ tag ∈ (Tag.pattern.split source).values, (tag.scopedText ids).getLast? = some '>' :=
    fun tag member => (tidy.settled tag member).scopedText_getLast ids
  exact ⟨⟨Split.confines_of_closes .element ends closesScoped,
    Split.confines_of_closes .component
      (fun tag member => forwardScope_getLast .element (ends tag member)) closesForwarded⟩, untorn⟩

end ScopedMarkup
