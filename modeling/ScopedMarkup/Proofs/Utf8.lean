import Mathlib.Data.List.TakeWhile
import ScopedMarkup.Text.Position

/-!
# Texts as bytes

Offsets count the bytes of a text in UTF-8. A character below U+0080 is one byte, which is its
code; every byte of another character is 128 or more. So a byte below 128 is a character of its
own wherever it is found, and the places before and behind it lie between characters. What looks
for such bytes alone may go byte by byte.
-/

namespace ScopedMarkup.Text

/-- The bytes of a text in UTF-8. -/
def utf8 (text : List Char) : List UInt8 := text.flatMap String.utf8EncodeChar

/-- The bytes between two offsets. There are none if the second offset lies before the first or
past the end. -/
def slice? (bytes : List UInt8) (start stop : Nat) : Option (List UInt8) :=
  if start ≤ stop ∧ stop ≤ bytes.length then some ((bytes.drop start).take (stop - start)) else none

/-- A slice is what stands between its offsets. -/
theorem slice?_eq_some_iff {bytes part : List UInt8} {start stop : Nat} :
    slice? bytes start stop = some part ↔
      ∃ before behind, bytes = before ++ (part ++ behind) ∧ before.length = start ∧
        start + part.length = stop := by
  rw [slice?, Option.ite_none_right_eq_some]
  constructor
  · rintro ⟨⟨ordered, bounded⟩, cut⟩
    obtain rfl := Option.some.inj cut
    refine ⟨bytes.take start, (bytes.drop start).drop (stop - start), ?_, ?_, ?_⟩
    · rw [List.take_append_drop, List.take_append_drop]
    · rw [List.length_take]
      omega
    · rw [List.length_take, List.length_drop]
      omega
  · rintro ⟨before, behind, rfl, rfl, rfl⟩
    constructor
    · rw [List.length_append, List.length_append]
      omega
    · rw [List.drop_left, Nat.add_sub_cancel_left, List.take_left]

@[simp] theorem utf8_nil : utf8 [] = [] := rfl

@[simp] theorem utf8_cons (c : Char) (rest : List Char) :
    utf8 (c :: rest) = String.utf8EncodeChar c ++ utf8 rest := List.flatMap_cons

/-- The bytes of joined texts are joined. -/
theorem utf8_append (first second : List Char) : utf8 (first ++ second) = utf8 first ++ utf8 second :=
  List.flatMap_append

/-- Byte lengths count these bytes. -/
theorem length_utf8 (text : List Char) : (utf8 text).length = byteLength text := by
  induction text with
  | nil => rfl
  | cons c rest inductionHypothesis =>
    rw [utf8_cons, List.length_append, String.length_utf8EncodeChar, inductionHypothesis,
      byteLength_cons]

/-- A byte that belongs to a character of several bytes. -/
def isWide (byte : UInt8) : Bool := 128 ≤ byte.toNat

/-- The bytes of a character: its first byte is its code if that is below 128, and wide otherwise,
and all further bytes are wide. -/
theorem exists_utf8EncodeChar (c : Char) :
    ∃ first more, String.utf8EncodeChar c = first :: more ∧ (∀ byte ∈ more, isWide byte = true) ∧
      (first.toNat = c.toNat ∧ c.toNat < 128 ∨ isWide first = true ∧ 128 ≤ c.toNat) := by
  have value : c.val.toNat = c.toNat := rfl
  unfold String.utf8EncodeChar
  dsimp only
  rw [value]
  split
  · rename_i small
    refine ⟨_, _, rfl, by simp, Or.inl ⟨?_, by omega⟩⟩
    rw [UInt8.toNat_ofNat']
    omega
  · rename_i large
    split
    · refine ⟨_, _, rfl, ?_, Or.inr ⟨?_, by omega⟩⟩ <;>
        simp only [List.mem_cons, List.not_mem_nil, or_false, forall_eq, isWide, decide_eq_true_eq,
          UInt8.toNat_ofNat'] <;> omega
    · split
      · refine ⟨_, _, rfl, ?_, Or.inr ⟨?_, by omega⟩⟩ <;>
          simp only [List.mem_cons, List.not_mem_nil, or_false, forall_eq_or_imp, forall_eq, isWide,
            decide_eq_true_eq, UInt8.toNat_ofNat'] <;> omega
      · refine ⟨_, _, rfl, ?_, Or.inr ⟨?_, by omega⟩⟩ <;>
          simp only [List.mem_cons, List.not_mem_nil, or_false, forall_eq_or_imp, forall_eq, isWide,
            decide_eq_true_eq, UInt8.toNat_ofNat'] <;> omega

/-- A character below U+0080 is a single byte. -/
theorem utf8EncodeChar_of_small {c : Char} (small : c.toNat < 128) :
    String.utf8EncodeChar c = [UInt8.ofNat c.toNat] := by
  have within : c.val.toNat ≤ 127 := Nat.le_of_lt_succ small
  simp only [String.utf8EncodeChar, if_pos within]
  rfl

/-- A byte that is not wide is a character of its own. -/
theorem exists_char_of_byte {text : List Char} {before behind : List UInt8} {byte : UInt8}
    (narrow : isWide byte = false) (spelled : utf8 text = before ++ byte :: behind) :
    ∃ front c back, text = front ++ c :: back ∧ utf8 front = before ∧ utf8 back = behind ∧
      c.toNat = byte.toNat := by
  induction text generalizing before with
  | nil => simp at spelled
  | cons c rest inductionHypothesis =>
    obtain ⟨first, more, encoded, wide, kind⟩ := exists_utf8EncodeChar c
    rw [utf8_cons, encoded] at spelled
    cases before with
    | nil =>
      obtain ⟨rfl, same⟩ := List.cons.inj spelled
      rcases kind with ⟨code, small⟩ | ⟨impossible, _⟩
      · have single : more = [] :=
          (List.cons.inj (encoded.symm.trans (utf8EncodeChar_of_small small))).2
        refine ⟨[], c, rest, rfl, rfl, ?_, code.symm⟩
        rw [← same, single]
        rfl
      · rw [narrow] at impossible
        exact absurd impossible Bool.false_ne_true
    | cons head tail =>
      obtain ⟨rfl, joined⟩ := List.cons.inj spelled
      have behindFirst : ∀ left, tail = more ++ left → utf8 rest = left ++ byte :: behind →
          ∃ front c' back, c :: rest = front ++ c' :: back ∧ utf8 front = first :: tail ∧
            utf8 back = behind ∧ c'.toNat = byte.toNat := by
        intro left early later
        obtain ⟨front, other, back, rfl, shown, same⟩ := inductionHypothesis later
        refine ⟨c :: front, other, back, rfl, ?_, same⟩
        rw [utf8_cons, encoded, shown, early, List.cons_append]
      rcases List.append_eq_append_iff.mp joined with ⟨left, early, later⟩ | ⟨left, early, later⟩
      · exact behindFirst left early later
      · cases left with
        | nil =>
          rw [List.append_nil] at early
          exact behindFirst [] (by rw [early, List.append_nil]) later.symm
        | cons next others =>
          obtain ⟨rfl, _⟩ := List.cons.inj later
          have impossible := wide byte (by rw [early]; simp)
          rw [narrow] at impossible
          exact absurd impossible Bool.false_ne_true

end ScopedMarkup.Text
