import Mathlib.Data.List.Forall2
import Mathlib.Data.List.TakeWhile
import ScopedMarkup.Json.Reader
import ScopedMarkup.Json.Writer

/-!
# Reading what was written

The compact text of a value is read back as the value. Every character of a string comes back from
its escape, also the control characters, which are written as code units. A number ends where no
character of a number follows, and in compact text a comma, a bracket or nothing follows. No blank
is written, so each value begins with its first character.

The reader counts down fuel at each value, each item and each member. None of them is written in less
than one character, so twice the length of the text is enough for all.

Only values that are kept as they were written are left out: they may have been written in any way.
-/

namespace ScopedMarkup.Json

/-- A hexadecimal digit stands for its value. -/
theorem hexValue_hexDigit : ∀ value < 16, hexValue? (hexDigit value) = some value := by
  decide

/-- The code unit of a control character is read back from its two digits. -/
theorem codeUnit_hexDigits {code : Nat} (small : code < 0x20) :
    codeUnit? '0' '0' (hexDigit (code / 16)) (hexDigit (code % 16)) = some code := by
  have high := hexValue_hexDigit (code / 16) (by omega)
  have low := hexValue_hexDigit (code % 16) (by omega)
  have zero : hexValue? '0' = some 0 := by decide
  have joined : (0 * 16 + 0) * 256 + (code / 16 * 16 + code % 16) = code := by omega
  simp only [codeUnit?, zero, high, low, Option.bind_eq_bind, Option.bind_some, Option.pure_def,
    joined]

/-- Whether an item of a string stands for a character. A control character may be given by its
code unit. -/
def StringItem.Is (c : Char) : StringItem → Prop
  | .char other => other = c
  | .unit code => code = c.toNat ∧ code < 0x20

/-- An escape is read as an item that stands for its character. -/
theorem readItems_escape (c : Char) :
    ∃ item : StringItem, item.Is c ∧
      ∀ rest, readItems (escape c ++ rest) = withItem item (readItems rest) := by
  by_cases quote : c = '"'
  · subst quote
    exact ⟨.char '"', rfl, fun rest => rfl⟩
  by_cases backslash : c = '\\'
  · subst backslash
    exact ⟨.char '\\', rfl, fun rest => rfl⟩
  by_cases backspace : c = '\x08'
  · subst backspace
    exact ⟨.char '\x08', rfl, fun rest => rfl⟩
  by_cases formFeed : c = '\x0c'
  · subst formFeed
    exact ⟨.char '\x0c', rfl, fun rest => rfl⟩
  by_cases lineFeed : c = '\n'
  · subst lineFeed
    exact ⟨.char '\n', rfl, fun rest => rfl⟩
  by_cases carriageReturn : c = '\r'
  · subst carriageReturn
    exact ⟨.char '\r', rfl, fun rest => rfl⟩
  by_cases tab : c = '\t'
  · subst tab
    exact ⟨.char '\t', rfl, fun rest => rfl⟩
  by_cases control : c.toNat < 0x20
  · refine ⟨.unit c.toNat, ⟨rfl, control⟩, ?_⟩
    intro rest
    simp only [escape, quote, backslash, backspace, formFeed, lineFeed, carriageReturn, tab, control,
      if_false, if_true, List.cons_append, List.nil_append]
    rw [readItems, codeUnit_hexDigits control]
  · refine ⟨.char c, rfl, ?_⟩
    intro rest
    simp only [escape, quote, backslash, backspace, formFeed, lineFeed, carriageReturn, tab, control,
      if_false, List.cons_append, List.nil_append]
    rw [readItems]
    · simp [control, backslash]
    · exact fun same => quote same
    · exact fun _ _ _ _ _ same => absurd same backslash
    · exact fun _ _ same => absurd same backslash

/-- A written string is read as items that stand for its characters, up to its closing quote. -/
theorem readItems_escapes (text rest : List Char) :
    ∃ items, List.Forall₂ (fun c item => StringItem.Is c item) text items ∧
      readItems (text.flatMap escape ++ '"' :: rest) = some (items, rest) := by
  induction text with
  | nil => exact ⟨[], .nil, rfl⟩
  | cons c others inductionHypothesis =>
    obtain ⟨items, stand, read⟩ := inductionHypothesis
    obtain ⟨item, is, reads⟩ := readItems_escape c
    refine ⟨item :: items, .cons is stand, ?_⟩
    rw [List.flatMap_cons, List.append_assoc, reads, read]
    rfl

/-- A code unit that is no half of a pair is a character, whatever stands behind it. -/
theorem assemble_unit {code : Nat} (notHigh : isHighSurrogate code = false)
    (notLow : isLowSurrogate code = false) (items : List StringItem) :
    assemble? (.unit code :: items) = (assemble? items).map (Char.ofNat code :: ·) := by
  cases items with
  | nil => simp [assemble?, notHigh, notLow]
  | cons next items => cases next <;> simp [assemble?, notHigh, notLow]

/-- Items that stand for characters are put together to these. -/
theorem assemble_of_forall₂ {text : List Char} {items : List StringItem}
    (stand : List.Forall₂ (fun c item => StringItem.Is c item) text items) :
    assemble? items = some text := by
  induction stand with
  | nil => rfl
  | @cons c item others items is later inductionHypothesis =>
    cases item with
    | char other =>
      obtain rfl : other = c := is
      rw [assemble?, inductionHypothesis]
      rfl
    | unit code =>
      obtain ⟨rfl, small⟩ : code = c.toNat ∧ code < 0x20 := is
      have notHigh : isHighSurrogate c.toNat = false := by
        simp [isHighSurrogate]
        omega
      have notLow : isLowSurrogate c.toNat = false := by
        simp [isLowSurrogate]
        omega
      rw [assemble_unit notHigh notLow, inductionHypothesis, Char.ofNat_toNat]
      rfl

/-- A written string is read back, behind its opening quote. -/
theorem readText_escapes (text : String) (rest : List Char) :
    readText (text.toList.flatMap escape ++ '"' :: rest) = some (some text, rest) := by
  obtain ⟨items, stand, read⟩ := readItems_escapes text.toList rest
  have whole := assemble_of_forall₂ stand
  simp only [readText, read, Option.map_some, whole, String.ofList_toList]

/-- Nothing in a text can go on with a number. -/
def EndsNumber (text : List Char) : Prop := ∀ c ∈ text.head?, isNumberChar c = false

/-- The digits of a number are characters of a number. -/
theorem isNumberChar_of_isDigit {c : Char} (digit : c.isDigit = true) : isNumberChar c = true := by
  simp [isNumberChar, digit]

/-- A number is written in digits. -/
theorem isDigit_of_mem_toDigits {value : Nat} : ∀ c ∈ Nat.toDigits 10 value, c.isDigit = true :=
  fun _ member => Nat.isDigit_of_mem_toDigits (by decide) (by decide) member

/-- Only zero is written with a zero in front. -/
theorem eq_zero_of_toDigits {value : Nat} (zero : (Nat.toDigits 10 value).head? = some '0') :
    value = 0 := by
  induction value using Nat.strongRecOn with
  | ind value inductionHypothesis =>
    rw [Nat.toDigits_eq_if (by decide)] at zero
    split at zero
    · rename_i small
      have none : ∀ digit < 10, Nat.digitChar digit = '0' → digit = 0 := by decide
      exact none value small (Option.some.inj zero)
    · rename_i large
      rw [List.head?_append_of_ne_nil _ Nat.toDigits_ne_nil] at zero
      have shorter := inductionHypothesis (value / 10) (by omega) zero
      omega

/-- A written number is a number. -/
theorem isNumber_toDigits (value : Nat) : isNumber (Nat.toDigits 10 value) = true := by
  have digits := @isDigit_of_mem_toDigits value
  have leading := @eq_zero_of_toDigits value
  cases spelled : Nat.toDigits 10 value with
  | nil => exact absurd spelled Nat.toDigits_ne_nil
  | cons first others =>
    rw [spelled] at digits leading
    have digit := digits first List.mem_cons_self
    have notMinus : first ≠ '-' := by
      rintro rfl
      exact absurd digit (by decide)
    have others_digits : others.dropWhile Char.isDigit = [] :=
      List.dropWhile_eq_nil_iff.mpr fun c member => digits c (List.mem_cons_of_mem _ member)
    have integer : skipInteger? (first :: others) = some [] := by
      by_cases zero : first = '0'
      · subst zero
        have nothing := leading rfl
        subst nothing
        have alone : others = [] := (List.cons.inj spelled).2.symm
        rw [alone]
        rfl
      · rw [skipInteger?]
        · rw [skipDigits?, if_pos digit, others_digits]
        · exact fun _ same => zero (List.cons.inj same).1
    have unsigned : skipMinus (first :: others) = first :: others := by
      rw [skipMinus]
      exact fun _ same => notMinus (List.cons.inj same).1
    rw [isNumber, unsigned, integer]
    rfl

/-- The value of written digits. -/
theorem digitsValue_toDigits (value : Nat) : digitsValue (Nat.toDigits 10 value) = value := by
  have read := @Nat.ofDigitChars_ten_toDigits value
  rw [Nat.ofDigitChars_eq_foldl] at read
  exact read

/-- A written number is read back where it ends. -/
theorem readNumber_toDigits (value : Nat) {rest : List Char} (ends : EndsNumber rest) :
    readNumber (Nat.toDigits 10 value ++ rest) = some (natural value, rest) := by
  have digits := @isDigit_of_mem_toDigits value
  have inside : ∀ c ∈ Nat.toDigits 10 value, isNumberChar c = true :=
    fun c member => isNumberChar_of_isDigit (digits c member)
  have stops : rest.takeWhile isNumberChar = [] ∧ rest.dropWhile isNumberChar = rest := by
    cases rest with
    | nil => exact ⟨rfl, rfl⟩
    | cons c others =>
      have outside := ends c rfl
      simp [outside]
  have all : (Nat.toDigits 10 value).all Char.isDigit = true := List.all_eq_true.mpr digits
  rw [readNumber, List.takeWhile_append_of_pos inside, List.dropWhile_append_of_pos inside,
    stops.1, stops.2, List.append_nil]
  simp only [isNumber_toDigits, all, digitsValue_toDigits, if_true]

/-- A number begins with a digit. -/
theorem exists_toDigits (value : Nat) :
    ∃ c rest, Nat.toDigits 10 value = c :: rest ∧ c.isDigit = true := by
  have present : Nat.toDigits 10 value ≠ [] := Nat.toDigits_ne_nil
  obtain ⟨c, rest, spelled⟩ := List.exists_cons_of_ne_nil present
  exact ⟨c, rest, spelled, isDigit_of_mem_toDigits c (spelled ▸ List.mem_cons_self)⟩

mutual

/-- Whether no part of a value is kept as it was written. -/
def isPlain : Json → Bool
  | literal _ => false
  | array items => arePlain items
  | object members => havePlain members
  | _ => true

/-- Whether no part of some values is. -/
def arePlain : List Json → Bool
  | [] => true
  | item :: rest => isPlain item && arePlain rest

/-- Whether no part of the values of some members is. -/
def havePlain : List (String × Json) → Bool
  | [] => true
  | (_, value) :: rest => isPlain value && havePlain rest

end

/-- A plain value begins with a character that is no blank and ends nothing. -/
theorem write_eq_cons {value : Json} (plain : value.isPlain = true) :
    ∃ c rest, value.write = c :: rest ∧ isBlank c = false ∧ c ≠ ']' ∧ c ≠ '}' := by
  cases value with
  | null => exact ⟨'n', "ull".toList, rfl, by decide, by decide, by decide⟩
  | bool truth =>
    cases truth with
    | false => exact ⟨'f', "alse".toList, rfl, by decide, by decide, by decide⟩
    | true => exact ⟨'t', "rue".toList, rfl, by decide, by decide, by decide⟩
  | natural value =>
    obtain ⟨c, rest, spelled, digit⟩ := exists_toDigits value
    refine ⟨c, rest, by rw [write, spelled], ?_, ?_, ?_⟩
    · rw [Bool.eq_false_iff]
      intro blank
      simp only [isBlank, Bool.or_eq_true, beq_iff_eq] at blank
      rcases blank with ((rfl | rfl) | rfl) | rfl <;> exact absurd digit (by decide)
    · rintro rfl
      exact absurd digit (by decide)
    · rintro rfl
      exact absurd digit (by decide)
  | string text => exact ⟨'"', _, rfl, by decide, by decide, by decide⟩
  | array items => exact ⟨'[', writeItems items ++ [']'], by rw [write]; rfl, by decide, by decide, by decide⟩
  | object members => exact ⟨'{', writeMembers members ++ ['}'], by rw [write]; rfl, by decide, by decide, by decide⟩
  | literal written => exact absurd plain Bool.false_ne_true

/-- No blank is passed over in front of a written value. -/
theorem skipBlanks_write {value : Json} (plain : value.isPlain = true) (rest : List Char) :
    skipBlanks (value.write ++ rest) = value.write ++ rest := by
  obtain ⟨c, others, spelled, solid, _⟩ := write_eq_cons plain
  rw [spelled, List.cons_append, skipBlanks, List.dropWhile_cons, if_neg (by simp [solid])]

/-- A written value has a character. -/
theorem write_length_pos {value : Json} (plain : value.isPlain = true) : 0 < value.write.length := by
  obtain ⟨c, others, spelled, _⟩ := write_eq_cons plain
  rw [spelled, List.length_cons]
  exact Nat.succ_pos _

/-- A number is read as a value. -/
theorem readValue_natural (fuel value : Nat) {rest : List Char} (ends : EndsNumber rest) :
    readValue (fuel + 1) ((natural value).write ++ rest) = some (natural value, rest) := by
  have read := readNumber_toDigits value ends
  obtain ⟨c, others, spelled, digit⟩ := exists_toDigits value
  rw [readValue, skipBlanks_write rfl, write]
  rw [spelled, List.cons_append] at read ⊢
  dsimp only
  -- No other kind of value begins with a digit.
  split
  case h_7 => exact read
  all_goals
    rename_i same
    obtain ⟨rfl, _⟩ := List.cons.inj same
    exact absurd digit (by decide)

/-- A string is read as a value. -/
theorem readValue_string (fuel : Nat) (text : String) (rest : List Char) :
    readValue (fuel + 1) ((string text).write ++ rest) = some (string text, rest) := by
  have read := readText_escapes text rest
  have spelled : (string text).write ++ rest = '"' :: (text.toList.flatMap escape ++ '"' :: rest) := by
    simp [write, writeString]
  rw [readValue, skipBlanks_write rfl, spelled]
  simp only [read]
  rfl

/-- Members under texts are members. -/
theorem namedMembers_of_texts (members : List (String × Json)) :
    namedMembers? (members.map fun member => (some member.1, member.2)) = some members := by
  induction members with
  | nil => rfl
  | cons member rest inductionHypothesis =>
    rw [List.map_cons, namedMembers?, inductionHypothesis]
    rfl

/-- An array whose first character ends it not is read item by item. -/
theorem readValue_items (fuel : Nat) {c : Char} (inside : List Char) (solid : isBlank c = false)
    (begun : c ≠ ']') : readValue (fuel + 1) ('[' :: c :: inside) =
      (readArray fuel (c :: inside)).map fun (items, rest) => (array items, rest) := by
  have here : skipBlanks (c :: inside) = c :: inside := by
    rw [skipBlanks, List.dropWhile_cons, if_neg (by simp [solid])]
  have bracket : skipBlanks ('[' :: c :: inside) = '[' :: c :: inside := rfl
  rw [readValue, bracket]
  simp only [here]
  split
  · rename_i same
    exact absurd (List.cons.inj same).1 begun
  · rfl

/-- An object whose first character is a quote is read member by member. -/
theorem readValue_members (fuel : Nat) {inside behind : List Char} {members : List (String × Json)}
    (read : readMembers fuel ('"' :: inside) =
      some (members.map fun member => (some member.1, member.2), behind)) :
    readValue (fuel + 1) ('{' :: '"' :: inside) = some (object members, behind) := by
  have named := namedMembers_of_texts members
  rw [readValue]
  show Option.map _ (readMembers fuel ('"' :: inside)) = _
  rw [read, Option.map_some]
  simp only [named]

/-- A comma stands behind an item that is not the last. -/
theorem writeItems_cons_cons (item next : Json) (others : List Json) :
    writeItems (item :: next :: others) = item.write ++ ',' :: writeItems (next :: others) := rfl

/-- A comma stands behind a member that is not the last. -/
theorem writeMembers_cons_cons (key : String) (value : Json) (next : String × Json)
    (others : List (String × Json)) : writeMembers ((key, value) :: next :: others) =
      writeString key ++ ':' :: (value.write ++ ',' :: writeMembers (next :: others)) := by
  rw [← List.cons_append, ← List.append_assoc]
  rfl

/-- An array is its items in brackets. -/
theorem write_array_append (items : List Json) (rest : List Char) :
    (array items).write ++ rest = '[' :: (writeItems items ++ ']' :: rest) := by
  simp [write]

/-- An object is its members in braces. -/
theorem write_object_append (members : List (String × Json)) (rest : List Char) :
    (object members).write ++ rest = '{' :: (writeMembers members ++ '}' :: rest) := by
  simp [write]

/-- The brackets are two characters. -/
theorem length_write_array (items : List Json) :
    (array items).write.length = (writeItems items).length + 2 := by
  simp [write]

/-- The braces are two characters. -/
theorem length_write_object (members : List (String × Json)) :
    (object members).write.length = (writeMembers members).length + 2 := by
  simp [write]

/-- Items begin with the first of them. -/
theorem exists_writeItems (first : Json) (others : List Json) :
    ∃ more, writeItems (first :: others) = first.write ++ more := by
  cases others with
  | nil => exact ⟨[], (List.append_nil _).symm⟩
  | cons next others => exact ⟨_, writeItems_cons_cons first next others⟩

/-- Members begin with a quote. -/
theorem exists_writeMembers (first : String × Json) (others : List (String × Json)) :
    ∃ inside, writeMembers (first :: others) = '"' :: inside := by
  cases others with
  | nil => exact ⟨_, rfl⟩
  | cons next others => exact ⟨_, writeMembers_cons_cons first.1 first.2 next others⟩

/-- A key and its value are read, and what stands behind the value says how to go on. -/
theorem readMembers_step (left : Nat) (key : String) {value : Json} {text rest : List Char}
    {reading : Option (List (Option String × Json) × List Char)}
    (read : readValue left text = some (value, rest))
    (continues : (match skipBlanks rest with
      | '}' :: rest => some ([(some key, value)], rest)
      | ',' :: rest =>
        (readMembers left rest).map fun (members, rest) => ((some key, value) :: members, rest)
      | _ => none) = reading) :
    readMembers (left + 1) (writeString key ++ ':' :: text) = reading := by
  have readKey := readText_escapes key (':' :: text)
  have whole : writeString key ++ ':' :: text =
      '"' :: (key.toList.flatMap escape ++ '"' :: ':' :: text) := by
    simp [writeString]
  have begun : skipBlanks ('"' :: (key.toList.flatMap escape ++ '"' :: ':' :: text)) =
      '"' :: (key.toList.flatMap escape ++ '"' :: ':' :: text) := rfl
  have colon : skipBlanks (':' :: text) = ':' :: text := rfl
  rw [whole, readMembers, begun]
  simp only [readKey, colon, read]
  exact continues

mutual

/-- A written value is read back, whatever stands behind it, if a number ends there. -/
theorem readValue_write (value : Json) (plain : value.isPlain = true) {fuel : Nat}
    (enough : 2 * value.write.length ≤ fuel) {rest : List Char} (ends : EndsNumber rest) :
    readValue fuel (value.write ++ rest) = some (value, rest) := by
  have positive := write_length_pos plain
  obtain ⟨left, rfl⟩ : ∃ left, fuel = left + 1 := ⟨fuel - 1, by omega⟩
  match value with
  | null =>
    rw [readValue, skipBlanks_write rfl, write]
    rfl
  | bool true =>
    rw [readValue, skipBlanks_write rfl, write]
    rfl
  | bool false =>
    rw [readValue, skipBlanks_write rfl, write]
    rfl
  | natural value => exact readValue_natural left value ends
  | string text => exact readValue_string left text rest
  | array [] =>
    rw [readValue, skipBlanks_write rfl]
    rfl
  | array (first :: others) =>
    have plainItems : arePlain (first :: others) = true := plain
    have plainFirst : first.isPlain = true := (Bool.and_eq_true_iff.mp plainItems).1
    obtain ⟨more, begins⟩ := exists_writeItems first others
    obtain ⟨c, tail, spelled, solid, begun, _⟩ := write_eq_cons plainFirst
    rw [length_write_array] at enough
    have read := readArray_writeItems (first :: others) (List.cons_ne_nil _ _) plainItems
      (show 2 * (writeItems (first :: others)).length < left by omega) rest
    rw [write_array_append]
    rw [begins, spelled, List.cons_append, List.cons_append] at read ⊢
    rw [readValue_items left _ solid begun, read]
    rfl
  | object [] =>
    rw [readValue, skipBlanks_write rfl]
    rfl
  | object (first :: others) =>
    have plainMembers : havePlain (first :: others) = true := plain
    obtain ⟨inside, begins⟩ := exists_writeMembers first others
    rw [length_write_object] at enough
    have read := readMembers_writeMembers (first :: others) (List.cons_ne_nil _ _) plainMembers
      (show 2 * (writeMembers (first :: others)).length < left by omega) rest
    rw [write_object_append]
    rw [begins, List.cons_append] at read ⊢
    exact readValue_members left read

/-- Written items are read back up to the bracket. -/
theorem readArray_writeItems (items : List Json) (present : items ≠ [])
    (plain : arePlain items = true) {fuel : Nat} (enough : 2 * (writeItems items).length < fuel)
    (rest : List Char) :
    readArray fuel (writeItems items ++ ']' :: rest) = some (items, rest) := by
  obtain ⟨left, rfl⟩ : ∃ left, fuel = left + 1 := ⟨fuel - 1, by omega⟩
  match items with
  | [] => exact absurd rfl present
  | [item] =>
    have plainItem : item.isPlain = true := (Bool.and_eq_true_iff.mp plain).1
    have ends : EndsNumber (']' :: rest) := by
      rintro c ⟨⟩
      decide
    rw [writeItems] at enough ⊢
    rw [readArray, readValue_write item plainItem (by omega) ends]
    rfl
  | item :: next :: others =>
    obtain ⟨plainItem, plainOthers⟩ := Bool.and_eq_true_iff.mp plain
    have ends : EndsNumber (',' :: (writeItems (next :: others) ++ ']' :: rest)) := by
      rintro c ⟨⟩
      decide
    rw [writeItems_cons_cons, List.length_append, List.length_cons] at enough
    have later := readArray_writeItems (next :: others) (List.cons_ne_nil _ _) plainOthers
      (show 2 * (writeItems (next :: others)).length < left by omega) rest
    rw [writeItems_cons_cons, List.append_assoc, List.cons_append, readArray,
      readValue_write item plainItem (by omega) ends]
    show Option.map _ (readArray left _) = _
    rw [later]
    rfl

/-- Written members are read back up to the brace. -/
theorem readMembers_writeMembers (members : List (String × Json)) (present : members ≠ [])
    (plain : havePlain members = true) {fuel : Nat}
    (enough : 2 * (writeMembers members).length < fuel) (rest : List Char) :
    readMembers fuel (writeMembers members ++ '}' :: rest) =
      some (members.map fun member => (some member.1, member.2), rest) := by
  obtain ⟨left, rfl⟩ : ∃ left, fuel = left + 1 := ⟨fuel - 1, by omega⟩
  match members with
  | [] => exact absurd rfl present
  | [(key, value)] =>
    have plainValue : value.isPlain = true := (Bool.and_eq_true_iff.mp plain).1
    have ends : EndsNumber ('}' :: rest) := by
      rintro c ⟨⟩
      decide
    have spelled : writeMembers [(key, value)] = writeString key ++ ':' :: value.write := rfl
    rw [spelled, List.length_append, List.length_cons] at enough
    rw [spelled, List.append_assoc, List.cons_append]
    exact readMembers_step left key (readValue_write value plainValue (by omega) ends) rfl
  | (key, value) :: next :: others =>
    obtain ⟨plainValue, plainOthers⟩ := Bool.and_eq_true_iff.mp plain
    have ends : EndsNumber (',' :: (writeMembers (next :: others) ++ '}' :: rest)) := by
      rintro c ⟨⟩
      decide
    rw [writeMembers_cons_cons, List.length_append, List.length_cons, List.length_append,
      List.length_cons] at enough
    have later := readMembers_writeMembers (next :: others) (List.cons_ne_nil _ _) plainOthers
      (show 2 * (writeMembers (next :: others)).length < left by omega) rest
    rw [writeMembers_cons_cons, List.append_assoc, List.cons_append, List.append_assoc,
      List.cons_append]
    refine readMembers_step left key (readValue_write value plainValue (by omega) ends) ?_
    show Option.map _ (readMembers left _) = _
    rw [later]
    rfl

end

/-- The compact text of a plain value is read as the value. -/
theorem read_compact {value : Json} (plain : value.isPlain = true) :
    read? value.compact = some value := by
  have read : readValue (2 * value.write.length + 2) (value.write ++ []) = some (value, []) := by
    refine readValue_write value plain (by omega) ?_
    rintro c ⟨⟩
  rw [List.append_nil] at read
  rw [read?, compact, String.toList_ofList]
  simp only [read]
  rfl

end ScopedMarkup.Json
