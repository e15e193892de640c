/-!
# Occurrences of a text within a text

A text occurs where it can be read off from some position on. `contains` decides
whether there is such a position, and `insertAfterFirst` adds characters directly
behind the first one. A text with no occurrence is left as it is, so the addition is
made at most once.

`cutAt?` cuts a text at the first occurrence of a single character.
-/

namespace ScopedMarkup.Text

/-- Whether `wanted` occurs in a text. -/
def contains (wanted : List Char) : List Char → Bool
  | [] => wanted.isEmpty
  | c :: rest => wanted.isPrefixOf (c :: rest) || contains wanted rest

/-- The text with `addition` put behind the first occurrence of `wanted`. -/
def insertAfterFirst (wanted addition : List Char) : List Char → List Char
  | [] => []
  | c :: rest =>
    if wanted.isPrefixOf (c :: rest) then
      wanted ++ addition ++ (c :: rest).drop wanted.length
    else
      c :: insertAfterFirst wanted addition rest

/-- The texts before and behind the first `stop`. -/
def cutAt? (stop : Char) : List Char → Option (List Char × List Char)
  | [] => none
  | c :: rest =>
    if c = stop then some ([], rest)
    else (cutAt? stop rest).map fun (before, behind) => (c :: before, behind)

/-- Containment is the existence of an occurrence: the text is some characters,
then `wanted`, then some characters. -/
theorem contains_iff (wanted text : List Char) : contains wanted text = true ↔ wanted <:+: text := by
  induction text with
  | nil =>
    rw [contains, List.isEmpty_iff, List.infix_nil]
  | cons c rest inductionHypothesis =>
    rw [contains, Bool.or_eq_true, List.isPrefixOf_iff_prefix, inductionHypothesis,
      List.infix_cons_iff]

/-- Without an occurrence there is nothing to add behind. -/
theorem insertAfterFirst_of_absent (wanted addition text : List Char)
    (absent : contains wanted text = false) : insertAfterFirst wanted addition text = text := by
  induction text with
  | nil => rfl
  | cons c rest inductionHypothesis =>
    rw [contains, Bool.or_eq_false_iff] at absent
    rw [insertAfterFirst, if_neg (by rw [absent.1]; exact Bool.false_ne_true),
      inductionHypothesis absent.2]

/-- A text that starts with the wanted one is extended directly behind that start. -/
theorem insertAfterFirst_of_prefix (wanted addition rest : List Char) (present : wanted ≠ []) :
    insertAfterFirst wanted addition (wanted ++ rest) = wanted ++ addition ++ rest := by
  cases wanted with
  | nil => exact absurd rfl present
  | cons c tail =>
    have starts : (c :: tail).isPrefixOf (c :: (tail ++ rest)) = true :=
      List.isPrefixOf_iff_prefix.mpr ⟨rest, rfl⟩
    rw [List.cons_append, insertAfterFirst, if_pos starts]
    exact congrArg _ (@List.drop_left _ (c :: tail) rest)

/-- A cut is at the first of the characters that it is made at. -/
theorem cutAt?_eq_some_iff (stop : Char) (text before behind : List Char) :
    cutAt? stop text = some (before, behind) ↔ text = before ++ stop :: behind ∧ stop ∉ before := by
  induction text generalizing before with
  | nil =>
    constructor
    · exact fun impossible => nomatch impossible
    · exact fun joined => absurd joined.1.symm (List.append_ne_nil_of_right_ne_nil _ (List.cons_ne_nil _ _))
  | cons c rest inductionHypothesis =>
    rw [cutAt?]
    by_cases here : c = stop
    · rw [if_pos here]
      constructor
      · intro found
        obtain ⟨rfl, rfl⟩ := Prod.mk.inj (Option.some.inj found)
        exact ⟨by rw [here, List.nil_append], List.not_mem_nil⟩
      · rintro ⟨joined, absent⟩
        cases before with
        | nil => rw [(List.cons.inj joined).2]
        | cons first others =>
          exact absurd (by rw [← (List.cons.inj joined).1, here]; exact List.mem_cons_self) absent
    · rw [if_neg here, Option.map_eq_some_iff]
      constructor
      · rintro ⟨⟨inner, rest'⟩, found, same⟩
        obtain ⟨rfl, rfl⟩ := Prod.mk.inj same
        obtain ⟨joined, absent⟩ := (inductionHypothesis inner).mp found
        refine ⟨by rw [joined, List.cons_append], ?_⟩
        rw [List.mem_cons]
        rintro (equal | inside)
        · exact here equal.symm
        · exact absent inside
      · rintro ⟨joined, absent⟩
        cases before with
        | nil => exact absurd (List.cons.inj joined).1 here
        | cons first others =>
          obtain ⟨rfl, shorter⟩ := List.cons.inj joined
          rw [List.mem_cons, not_or] at absent
          exact ⟨(others, behind), (inductionHypothesis others).mpr ⟨shorter, absent.2⟩, rfl⟩

/-- There is no cut exactly where the character does not occur. -/
theorem cutAt?_eq_none_iff (stop : Char) (text : List Char) :
    cutAt? stop text = none ↔ stop ∉ text := by
  induction text with
  | nil => exact ⟨fun _ => List.not_mem_nil, fun _ => rfl⟩
  | cons c rest inductionHypothesis =>
    rw [cutAt?, List.mem_cons, not_or]
    by_cases here : c = stop
    · rw [if_pos here]
      exact ⟨fun impossible => (nomatch impossible), fun absent => absurd here.symm absent.1⟩
    · rw [if_neg here, Option.map_eq_none_iff, inductionHypothesis]
      exact ⟨fun absent => ⟨fun equal => here equal.symm, absent⟩, fun absent => absent.2⟩

end ScopedMarkup.Text
