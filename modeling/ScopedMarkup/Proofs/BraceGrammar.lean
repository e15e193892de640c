import ScopedMarkup.Proofs.BraceCounting

/-!
# The grammar of brace groups

A group is a word of bytes: `{`, items, `}`. An item is a group, an escaped pair, a string, a
template literal, or any other single byte. The grammar below says so rule by rule; it knows neither
a counter nor a mode, and nothing in it looks beyond the word.

Counting over the bytes of a text recognises exactly the words of this grammar. One direction is by
induction on the derivation: whatever stands behind a phrase, counting passes over the phrase and is
back in the mode that it came in. The other is by induction on the counting: what is left of a group
in some mode is the rest of the phrase that is being read, and then the rest of each group that is
open around it. Because a word is passed over whatever stands behind it, no word of the grammar
begins another one, and the end of a group is unique.
-/

namespace ScopedMarkup.Braces

open Counting

namespace Grammar

/-- The kinds of phrases. -/
inductive Phrase where
  /-- A group. -/
  | group
  /-- One item of a group. -/
  | item
  /-- Any number of items. -/
  | items
  /-- What stands in a string that ends with `quote`. -/
  | quoted (quote : UInt8)
  /-- The parts of a template literal. -/
  | parts
  /-- What stands in an interpolation. -/
  | inner

/-- The words of a kind. -/
inductive Word : Phrase → List UInt8 → Prop where
  /-- A group is items in braces. -/
  | group {inside : List UInt8} (items : Word .items inside) :
    Word .group ('{'.toUInt8 :: (inside ++ ['}'.toUInt8]))
  /-- There may be no item. -/
  | noItem : Word .items []
  /-- An item may come first. -/
  | anItem {first rest : List UInt8} (item : Word .item first) (items : Word .items rest) :
    Word .items (first ++ rest)
  /-- A group is an item. -/
  | nested {word : List UInt8} (group : Word .group word) : Word .item word
  /-- A backslash with the byte behind it is an item. -/
  | escape (next : UInt8) : Word .item ['\\'.toUInt8, next]
  /-- A string is an item. -/
  | string {quote : UInt8} {inside : List UInt8}
    (mark : quote = '"'.toUInt8 ∨ quote = '\''.toUInt8) (body : Word (.quoted quote) inside) :
    Word .item (quote :: (inside ++ [quote]))
  /-- A template literal is an item. -/
  | template {inside : List UInt8} (parts : Word .parts inside) :
    Word .item ('`'.toUInt8 :: (inside ++ ['`'.toUInt8]))
  /-- Any other byte is an item. -/
  | other {byte : UInt8} (plain : byte ≠ '{'.toUInt8 ∧ byte ≠ '}'.toUInt8 ∧ byte ≠ '"'.toUInt8 ∧
      byte ≠ '\''.toUInt8 ∧ byte ≠ '`'.toUInt8 ∧ byte ≠ '\\'.toUInt8) : Word .item [byte]
  /-- A string may be empty. -/
  | quotedEnd (quote : UInt8) : Word (.quoted quote) []
  /-- An escaped pair may stand in a string. -/
  | quotedEscape {quote : UInt8} (next : UInt8) {rest : List UInt8}
    (body : Word (.quoted quote) rest) : Word (.quoted quote) ('\\'.toUInt8 :: next :: rest)
  /-- So may a byte other than its quote and the backslash. -/
  | quotedByte {quote byte : UInt8} {rest : List UInt8}
    (plain : byte ≠ quote ∧ byte ≠ '\\'.toUInt8) (body : Word (.quoted quote) rest) :
    Word (.quoted quote) (byte :: rest)
  /-- A template literal may have no parts. -/
  | partsEnd : Word .parts []
  /-- An escaped pair is a part. -/
  | partsEscape (next : UInt8) {rest : List UInt8} (parts : Word .parts rest) :
    Word .parts ('\\'.toUInt8 :: next :: rest)
  /-- An interpolation is a part. -/
  | partsInterpolation {inside rest : List UInt8} (inner : Word .inner inside)
    (parts : Word .parts rest) :
    Word .parts ('$'.toUInt8 :: '{'.toUInt8 :: (inside ++ '}'.toUInt8 :: rest))
  /-- A byte is a part unless it is a backtick, a backslash, or the `$` of an interpolation. -/
  | partsByte {byte : UInt8} {rest : List UInt8}
    (plain : byte ≠ '`'.toUInt8 ∧ byte ≠ '\\'.toUInt8)
    (unopened : byte = '$'.toUInt8 → rest.head? ≠ some '{'.toUInt8) (parts : Word .parts rest) :
    Word .parts (byte :: rest)
  /-- An interpolation may be empty. -/
  | innerEnd : Word .inner []
  /-- An escaped pair may stand in an interpolation. -/
  | innerEscape (next : UInt8) {rest : List UInt8} (inner : Word .inner rest) :
    Word .inner ('\\'.toUInt8 :: next :: rest)
  /-- So may a further interpolation. -/
  | innerInterpolation {inside rest : List UInt8} (nested : Word .inner inside)
    (inner : Word .inner rest) :
    Word .inner ('$'.toUInt8 :: '{'.toUInt8 :: (inside ++ '}'.toUInt8 :: rest))
  /-- So may a byte unless it is a `}`, a backslash, or the `$` of an interpolation. -/
  | innerByte {byte : UInt8} {rest : List UInt8}
    (plain : byte ≠ '}'.toUInt8 ∧ byte ≠ '\\'.toUInt8)
    (unopened : byte = '$'.toUInt8 → rest.head? ≠ some '{'.toUInt8) (inner : Word .inner rest) :
    Word .inner (byte :: rest)

/-- The marks of strings. -/
def IsQuote (quote : UInt8) : Prop := quote = '"'.toUInt8 ∨ quote = '\''.toUInt8

theorem IsQuote.ne_backslash {quote : UInt8} (mark : IsQuote quote) : quote ≠ '\\'.toUInt8 := by
  rcases mark with rfl | rfl <;> decide

/-- How counting passes over a phrase. Text behind it plays no part. -/
def Passes : Phrase → List UInt8 → Prop
  | .group, word => (∀ rest, run 0 .code false (word ++ rest) = .closed rest) ∧
      ∀ depth rest, run (depth + 1) .code false (word ++ rest) = run (depth + 1) .code false rest
  | .item, word | .items, word => ∀ depth rest,
      run (depth + 1) .code false (word ++ rest) = run (depth + 1) .code false rest
  | .quoted quote, word => IsQuote quote → ∀ depth rest,
      run depth (.quoted quote) false (word ++ quote :: rest) = run depth .code false rest
  | .parts, word => ∀ depth rest,
      run depth (.template 0) false (word ++ '`'.toUInt8 :: rest) = run depth .code false rest
  | .inner, word => ∀ depth interpolations rest,
      run depth (.template (interpolations + 1)) false (word ++ '}'.toUInt8 :: rest) =
        run depth (.template interpolations) false rest

/-- A `$` that opens no interpolation in front of a word does not do so in front of the byte that
ends the word either. -/
theorem not_opens {byte stop : UInt8} {rest more : List UInt8}
    (unopened : byte = '$'.toUInt8 → rest.head? ≠ some '{'.toUInt8) (notOpen : stop ≠ '{'.toUInt8) :
    ¬(byte = '$'.toUInt8 ∧ (rest ++ stop :: more).head? = some '{'.toUInt8) := by
  rintro ⟨dollar, brace⟩
  cases rest with
  | nil => exact notOpen (Option.some.inj brace)
  | cons next others => exact unopened dollar brace

/-- Counting passes over every word of the grammar. -/
theorem passes {phrase : Phrase} {word : List UInt8} (derived : Word phrase word) :
    Passes phrase word := by
  induction derived with
  | @group inside items passes =>
    have closing : ∀ rest, '{'.toUInt8 :: (inside ++ ['}'.toUInt8]) ++ rest =
        '{'.toUInt8 :: (inside ++ '}'.toUInt8 :: rest) := by
      intro rest
      simp
    constructor
    · intro rest
      rw [closing, run_open, passes, run_close_last]
    · intro depth rest
      rw [closing, run_open, passes, run_close_inner]
  | noItem => exact fun depth rest => rfl
  | anItem item items passesFirst passesRest =>
    intro depth rest
    rw [List.append_assoc, passesFirst, passesRest]
  | nested group passes => exact passes.2
  | escape next => exact fun depth rest => run_escape next rest
  | @string quote inside mark body passes =>
    intro depth rest
    have noBrace : quote ≠ '{'.toUInt8 ∧ quote ≠ '}'.toUInt8 := by
      rcases mark with rfl | rfl <;> decide
    have closing : quote :: (inside ++ [quote]) ++ rest = quote :: (inside ++ quote :: rest) := by
      simp
    rw [closing, run_code_byte (fun both => IsQuote.ne_backslash mark both.1) noBrace.1 noBrace.2,
      if_pos mark, passes mark]
  | @template inside parts passes =>
    intro depth rest
    have closing : '`'.toUInt8 :: (inside ++ ['`'.toUInt8]) ++ rest =
        '`'.toUInt8 :: (inside ++ '`'.toUInt8 :: rest) := by
      simp
    rw [closing, run_code_byte (fun both => absurd both.1 (by decide)) (by decide) (by decide),
      if_neg (by decide), if_pos rfl, passes]
  | other plain =>
    intro depth rest
    obtain ⟨notOpen, notShut, notDouble, notSingle, notTick, notEscape⟩ := plain
    rw [List.singleton_append, run_code_byte (fun both => notEscape both.1) notOpen notShut,
      if_neg (by simp [notDouble, notSingle]), if_neg notTick]
  | quotedEnd quote =>
    intro mark depth rest
    rw [List.nil_append, run_quoted_byte fun both => mark.ne_backslash both.1, if_pos rfl]
  | quotedEscape next body passes =>
    intro mark depth rest
    rw [List.cons_append, List.cons_append, run_escape, passes mark]
  | quotedByte plain body passes =>
    intro mark depth rest
    rw [List.cons_append, run_quoted_byte fun both => plain.2 both.1, if_neg plain.1, passes mark]
  | partsEnd =>
    intro depth rest
    rw [List.nil_append, run_template_byte (fun both => absurd both.1 (by decide))
      (fun both => absurd both.1 (by decide)), if_pos ⟨rfl, rfl⟩]
  | partsEscape next parts passes =>
    intro depth rest
    rw [List.cons_append, List.cons_append, run_escape, passes]
  | partsInterpolation inner parts passesInner passesRest =>
    intro depth rest
    rw [List.cons_append, List.cons_append, run_interpolation, List.append_assoc, List.cons_append,
      passesInner, passesRest]
  | partsByte plain unopened parts passes =>
    intro depth rest
    rw [List.cons_append, run_template_byte (fun both => plain.2 both.1)
      (not_opens unopened (by decide)), if_neg fun both => plain.1 both.1, Nat.zero_sub, ite_self,
      passes]
  | innerEnd =>
    intro depth interpolations rest
    rw [List.nil_append, run_template_byte (fun both => absurd both.1 (by decide))
      (fun both => absurd both.1 (by decide)), if_neg (by simp), if_pos rfl, Nat.add_sub_cancel]
  | innerEscape next inner passes =>
    intro depth interpolations rest
    rw [List.cons_append, List.cons_append, run_escape, passes]
  | innerInterpolation nested inner passesNested passesRest =>
    intro depth interpolations rest
    rw [List.cons_append, List.cons_append, run_interpolation, List.append_assoc, List.cons_append,
      passesNested, passesRest]
  | innerByte plain unopened inner passes =>
    intro depth interpolations rest
    rw [List.cons_append, run_template_byte (fun both => plain.2 both.1)
      (not_opens unopened (by decide)), if_neg (by simp), if_neg plain.1, passes]

/-- What is left of a group where counting is in a mode with so many braces open: the rest of the
phrase that is being read, and behind it what is left in the mode around that phrase. -/
inductive Left : (depth : Nat) → Mode → List UInt8 → Prop where
  /-- Items and the brace that closes the group. -/
  | last {word : List UInt8} (items : Word .items word) : Left 1 .code (word ++ ['}'.toUInt8])
  /-- Items and the brace that closes a group inside. -/
  | close {depth : Nat} {word rest : List UInt8} (items : Word .items word)
    (left : Left (depth + 1) .code rest) : Left (depth + 2) .code (word ++ '}'.toUInt8 :: rest)
  /-- The rest of a string. -/
  | quoted {depth : Nat} {quote : UInt8} {word rest : List UInt8} (body : Word (.quoted quote) word)
    (left : Left depth .code rest) : Left depth (.quoted quote) (word ++ quote :: rest)
  /-- The rest of a template literal. -/
  | template {depth : Nat} {word rest : List UInt8} (parts : Word .parts word)
    (left : Left depth .code rest) : Left depth (.template 0) (word ++ '`'.toUInt8 :: rest)
  /-- The rest of an interpolation. -/
  | inner {depth interpolations : Nat} {word rest : List UInt8} (inner : Word .inner word)
    (left : Left depth (.template interpolations) rest) :
    Left depth (.template (interpolations + 1)) (word ++ '}'.toUInt8 :: rest)

namespace Left

variable {depth : Nat} {mode : Mode} {left : List UInt8}

/-- An item may come before what is left in code. -/
theorem item (tail : Left depth .code left) {word : List UInt8} (item : Word .item word) :
    Left depth .code (word ++ left) := by
  cases tail with
  | last items =>
    rw [← List.append_assoc]
    exact .last (.anItem item items)
  | close items tail =>
    rw [← List.append_assoc]
    exact .close (.anItem item items) tail

/-- So may a group. -/
theorem group (tail : Left (depth + 2) .code left) :
    Left (depth + 1) .code ('{'.toUInt8 :: left) := by
  cases tail with
  | close items tail =>
    have whole := tail.item (.nested (.group items))
    rwa [List.cons_append, List.append_assoc] at whole

/-- So may a string. -/
theorem string {quote : UInt8} (mark : IsQuote quote) (tail : Left depth (.quoted quote) left) :
    Left depth .code (quote :: left) := by
  cases tail with
  | quoted body tail =>
    have whole := tail.item (.string mark body)
    rwa [List.cons_append, List.append_assoc] at whole

/-- So may a template literal. -/
theorem literal (tail : Left depth (.template 0) left) :
    Left depth .code ('`'.toUInt8 :: left) := by
  cases tail with
  | template parts tail =>
    have whole := tail.item (.template parts)
    rwa [List.cons_append, List.append_assoc] at whole

/-- An escaped pair may come before what is left in any mode. -/
theorem escape (next : UInt8) (tail : Left depth mode left) :
    Left depth mode ('\\'.toUInt8 :: next :: left) := by
  cases tail with
  | last items => exact item (.last items) (.escape next)
  | close items tail => exact item (.close items tail) (.escape next)
  | quoted body tail => exact .quoted (.quotedEscape next body) tail
  | template parts tail => exact .template (.partsEscape next parts) tail
  | inner inner tail => exact .inner (.innerEscape next inner) tail

/-- An interpolation may come before what is left of a template. -/
theorem interpolation {interpolations : Nat}
    (tail : Left depth (.template (interpolations + 1)) left) :
    Left depth (.template interpolations) ('$'.toUInt8 :: '{'.toUInt8 :: left) := by
  cases tail with
  | @inner _ _ word _ inner tail =>
    cases tail with
    | @template _ parts rest derived tail =>
      have whole := Left.template (.partsInterpolation inner derived) tail
      rwa [List.cons_append, List.cons_append, List.append_assoc, List.cons_append] at whole
    | @inner _ _ others rest derived tail =>
      have whole := Left.inner (.innerInterpolation inner derived) tail
      rwa [List.cons_append, List.cons_append, List.append_assoc, List.cons_append] at whole

/-- A byte other than its quote and the backslash may come before what is left of a string. -/
theorem quotedByte {quote byte : UInt8} (plain : byte ≠ quote ∧ byte ≠ '\\'.toUInt8)
    (tail : Left depth (.quoted quote) left) : Left depth (.quoted quote) (byte :: left) := by
  cases tail with
  | quoted body tail => exact .quoted (.quotedByte plain body) tail

/-- A byte of a template may come before what is left of it, if it escapes none, opens no
interpolation and ends nothing. -/
theorem templateByte {interpolations : Nat} {byte : UInt8} (notEscape : byte ≠ '\\'.toUInt8)
    (unopened : ¬(byte = '$'.toUInt8 ∧ left.head? = some '{'.toUInt8))
    (notTick : ¬(byte = '`'.toUInt8 ∧ interpolations = 0))
    (notShut : ¬(byte = '}'.toUInt8 ∧ interpolations ≠ 0))
    (tail : Left depth (.template interpolations) left) :
    Left depth (.template interpolations) (byte :: left) := by
  have inWord : ∀ {word rest : List UInt8}, left = word ++ rest →
      byte = '$'.toUInt8 → word.head? ≠ some '{'.toUInt8 := by
    rintro word rest rfl dollar brace
    obtain ⟨others, rfl⟩ := List.head?_eq_some_iff.mp brace
    exact unopened ⟨dollar, rfl⟩
  cases tail with
  | template parts tail =>
    exact .template (.partsByte ⟨fun tick => notTick ⟨tick, rfl⟩, notEscape⟩ (inWord rfl) parts) tail
  | inner inner tail =>
    exact .inner (.innerByte ⟨fun shut => notShut ⟨shut, Nat.succ_ne_zero _⟩, notEscape⟩
      (inWord rfl) inner) tail

end Left

/-- Counting that ends behind a byte has not met a backslash at the end of the bytes there. -/
theorem ne_backslash {depth : Nat} {mode : Mode} {byte : UInt8} {rest behind : List UInt8}
    (unescaped : ¬(byte = '\\'.toUInt8 ∧ rest.head?.isSome = true))
    (counted : run depth mode false rest = .closed behind) : byte ≠ '\\'.toUInt8 := by
  rintro rfl
  cases rest with
  | nil => simp at counted
  | cons next others => exact unescaped ⟨rfl, rfl⟩

/-- Wherever counting over the bytes ends with `behind`, it has gone over what is left of the group
in its mode and nothing else. -/
def GoesOver (bytes behind : List UInt8) : Prop :=
  ∀ (depth : Nat) (mode : Mode), (∀ quote, mode = .quoted quote → IsQuote quote) →
    run (depth + 1) mode false bytes = .closed behind →
      ∃ taken, bytes = taken ++ behind ∧ Left (depth + 1) mode taken

namespace GoesOver

variable {depth depth' : Nat} {mode mode' : Mode} {bytes behind : List UInt8}

/-- Bytes that lead to another mode are put in front of what is left there. -/
theorem extend (later : GoesOver bytes behind) (taking : List UInt8)
    (marked : ∀ quote, mode' = .quoted quote → IsQuote quote)
    (counted : run (depth' + 1) mode' false bytes = .closed behind)
    (left : ∀ taken, Left (depth' + 1) mode' taken → Left (depth + 1) mode (taking ++ taken)) :
    ∃ taken, taking ++ bytes = taken ++ behind ∧ Left (depth + 1) mode taken := by
  obtain ⟨taken, rfl, tail⟩ := later _ _ marked counted
  exact ⟨taking ++ taken, (List.append_assoc ..).symm, left taken tail⟩

/-- A byte of code that escapes none. -/
theorem code {byte : UInt8} (later : GoesOver bytes behind)
    (unescaped : ¬(byte = '\\'.toUInt8 ∧ bytes.head?.isSome = true))
    (counted : run (depth + 1) .code false (byte :: bytes) = .closed behind) :
    ∃ taken, byte :: bytes = taken ++ behind ∧ Left (depth + 1) .code taken := by
  by_cases opens : byte = '{'.toUInt8
  · subst opens
    rw [run_open] at counted
    exact later.extend [_] (by rintro quote ⟨⟩) counted fun taken left => left.group
  by_cases shuts : byte = '}'.toUInt8
  · subst shuts
    cases depth with
    | zero =>
      obtain rfl := Outcome.closed.inj ((run_close_last bytes).symm.trans counted)
      exact ⟨['}'.toUInt8], rfl, .last .noItem⟩
    | succ depth =>
      rw [run_close_inner] at counted
      exact later.extend [_] (by rintro quote ⟨⟩) counted fun taken left => .close .noItem left
  rw [run_code_byte unescaped opens shuts] at counted
  have notEscape := ne_backslash unescaped counted
  split at counted
  · rename_i mark
    refine later.extend [_] ?_ counted fun taken left => left.string mark
    rintro quote same
    exact Mode.quoted.inj same ▸ mark
  · rename_i noMark
    obtain ⟨notDouble, notSingle⟩ := not_or.mp noMark
    split at counted
    · rename_i tick
      subst tick
      exact later.extend [_] (by rintro quote ⟨⟩) counted fun taken left => left.literal
    · rename_i notTick
      exact later.extend [_] (by rintro quote ⟨⟩) counted fun taken left =>
        left.item (.other ⟨opens, shuts, notDouble, notSingle, notTick, notEscape⟩)

/-- A byte of a string that escapes none. -/
theorem quoted {quote byte : UInt8} (later : GoesOver bytes behind) (mark : IsQuote quote)
    (unescaped : ¬(byte = '\\'.toUInt8 ∧ bytes.head?.isSome = true))
    (counted : run (depth + 1) (.quoted quote) false (byte :: bytes) = .closed behind) :
    ∃ taken, byte :: bytes = taken ++ behind ∧ Left (depth + 1) (.quoted quote) taken := by
  rw [run_quoted_byte unescaped] at counted
  have notEscape := ne_backslash unescaped counted
  split at counted
  · rename_i ends
    subst ends
    exact later.extend [_] (by rintro quote ⟨⟩) counted fun taken left =>
      .quoted (.quotedEnd byte) left
  · rename_i goesOn
    refine later.extend [_] ?_ counted fun taken left => left.quotedByte ⟨goesOn, notEscape⟩
    rintro other same
    exact Mode.quoted.inj same ▸ mark

/-- A byte of a template that escapes none and opens no interpolation. -/
theorem template {interpolations : Nat} {byte : UInt8} (later : GoesOver bytes behind)
    (unescaped : ¬(byte = '\\'.toUInt8 ∧ bytes.head?.isSome = true))
    (unopened : ¬(byte = '$'.toUInt8 ∧ bytes.head? = some '{'.toUInt8))
    (counted : run (depth + 1) (.template interpolations) false (byte :: bytes) = .closed behind) :
    ∃ taken, byte :: bytes = taken ++ behind ∧
      Left (depth + 1) (.template interpolations) taken := by
  rw [run_template_byte unescaped unopened] at counted
  have notEscape := ne_backslash unescaped counted
  split at counted
  · rename_i ends
    obtain ⟨rfl, rfl⟩ := ends
    exact later.extend [_] (by rintro quote ⟨⟩) counted fun taken left =>
      .template .partsEnd left
  · rename_i notTick
    by_cases shuts : byte = '}'.toUInt8 ∧ interpolations ≠ 0
    · obtain ⟨rfl, opened⟩ := shuts
      obtain ⟨outer, rfl⟩ := Nat.exists_eq_succ_of_ne_zero opened
      rw [if_pos rfl] at counted
      exact later.extend [_] (by rintro quote ⟨⟩) counted fun taken left =>
        .inner .innerEnd left
    · have same : (if byte = '}'.toUInt8 then Mode.template (interpolations - 1)
          else .template interpolations) = .template interpolations := by
        split
        · rename_i shut
          have none : interpolations = 0 := by
            by_contra opened
            exact shuts ⟨shut, opened⟩
          rw [none]
        · rfl
      rw [same] at counted
      obtain ⟨taken, rfl, left⟩ := later _ _ (by rintro quote ⟨⟩) counted
      refine ⟨byte :: taken, rfl, left.templateByte notEscape ?_ notTick shuts⟩
      rintro ⟨dollar, brace⟩
      obtain ⟨others, rfl⟩ := List.head?_eq_some_iff.mp brace
      exact unopened ⟨dollar, rfl⟩

end GoesOver

/-- Counting goes over what is left of the group and nothing else. -/
theorem goesOver (bytes behind : List UInt8) : GoesOver bytes behind := by
  induction bound : bytes.length using Nat.strongRecOn generalizing bytes with
  | ind size inductionHypothesis =>
    intro depth mode marked counted
    cases bytes with
    | nil => simp at counted
    | cons byte rest =>
      have later : GoesOver rest behind :=
        inductionHypothesis rest.length (by rw [← bound]; exact Nat.lt_succ_self _) rest rfl
      have beyond : ∀ {next : UInt8} {others : List UInt8}, rest = next :: others →
          GoesOver others behind := by
        rintro next others rfl
        have shorter : others.length < size := by
          rw [← bound, List.length_cons, List.length_cons]
          omega
        exact inductionHypothesis others.length shorter others rfl
      by_cases escapes : byte = '\\'.toUInt8 ∧ rest.head?.isSome = true
      · obtain ⟨rfl, present⟩ := escapes
        obtain ⟨next, first⟩ := Option.isSome_iff_exists.mp present
        obtain ⟨others, rfl⟩ := List.head?_eq_some_iff.mp first
        rw [run_escape] at counted
        exact (beyond rfl).extend [_, next] marked counted fun taken left => left.escape next
      · cases mode with
        | code => exact later.code escapes counted
        | quoted quote => exact later.quoted (marked quote rfl) escapes counted
        | template interpolations =>
          by_cases opens : byte = '$'.toUInt8 ∧ rest.head? = some '{'.toUInt8
          · obtain ⟨rfl, first⟩ := opens
            obtain ⟨others, rfl⟩ := List.head?_eq_some_iff.mp first
            rw [run_interpolation] at counted
            exact (beyond rfl).extend [_, _] (by rintro quote ⟨⟩) counted fun taken left =>
              left.interpolation
          · exact later.template escapes opens counted

/-- Counting recognises the words of the grammar. -/
theorem run_eq_closed_iff {bytes behind : List UInt8} :
    run 0 .code false ('{'.toUInt8 :: bytes) = .closed behind ↔
      ∃ word, '{'.toUInt8 :: bytes = word ++ behind ∧ Word .group word := by
  constructor
  · intro counted
    rw [run_open] at counted
    obtain ⟨taken, rfl, left⟩ := goesOver bytes behind _ _ (by rintro quote ⟨⟩) counted
    cases left with
    | last items => exact ⟨_, List.cons_append .., .group items⟩
  · rintro ⟨word, joined, derived⟩
    rw [joined]
    exact (passes derived).1 behind

/-- Counting from an offset on ends behind the word of the grammar that begins there. -/
theorem outcomeAt_eq_closed_iff {bytes behind : List UInt8} {start : Nat} :
    outcomeAt bytes start = .closed behind ↔
      ∃ before word, bytes = before ++ (word ++ behind) ∧ before.length = start ∧
        Word .group word := by
  constructor
  · intro counted
    rw [outcomeAt] at counted
    split at counted
    · rename_i brace
      obtain ⟨inside, byte⟩ := List.getElem?_eq_some_iff.mp brace
      have spelled : bytes.drop start = '{'.toUInt8 :: bytes.drop (start + 1) := by
        rw [← byte, ← List.drop_eq_getElem_cons inside]
      rw [spelled] at counted
      obtain ⟨word, joined, derived⟩ := run_eq_closed_iff.mp counted
      refine ⟨bytes.take start, word, ?_, ?_, derived⟩
      · rw [← joined, ← spelled, List.take_append_drop]
      · rw [List.length_take]
        omega
    · exact nomatch counted
  · rintro ⟨before, word, rfl, rfl, derived⟩
    have counted := (passes derived).1 behind
    cases derived with
    | group items =>
      rw [outcomeAt, List.getElem?_append_right (Nat.le_refl _), Nat.sub_self, List.drop_left]
      exact (if_pos rfl).trans counted

end Grammar

/-- A word of the grammar stands between two offsets of a text. -/
def IsGroupAt (source : List Char) (start stop : Nat) : Prop :=
  ∃ word, Text.slice? (Text.utf8 source) start stop = some word ∧ Grammar.Word .group word

variable {source : List Char} {start stop : Nat}

/-- A group ends within its text, between two characters, and its last byte is a `}`. -/
theorem closes_of_endOffset? (found : endOffset? source start = some stop) :
    start < stop ∧ (Text.utf8 source)[stop - 1]? = some '}'.toUInt8 ∧
      ∃ before, before <+: source ∧ Text.byteLength before = stop := by
  obtain ⟨front, inner, behind, rfl, read, rfl, rfl⟩ := endOffset?_eq_some_iff.mp found
  have shut : Text.byteLength ['}'] = 1 := rfl
  have sized : Text.byteLength (front ++ ('{' :: inner ++ ['}'])) =
      Text.byteLength (front ++ '{' :: inner) + 1 := by
    rw [← List.append_assoc, Text.byteLength_append _ ['}'], shut]
  refine ⟨?_, ?_, _, List.prefix_append _ behind, rfl⟩
  · rw [sized, Text.byteLength_append]
    omega
  · have split : Text.utf8 (front ++ ('{' :: inner ++ ['}']) ++ behind) =
        Text.utf8 (front ++ '{' :: inner) ++ '}'.toUInt8 :: Text.utf8 behind := by
      rw [← List.append_assoc front, List.append_assoc _ ['}'], Text.utf8_append]
      rfl
    rw [sized, Nat.add_sub_cancel, split, ← Text.length_utf8,
      List.getElem?_append_right (Nat.le_refl _), Nat.sub_self]
    rfl

/-- A group ends within its text. -/
theorem le_byteLength_of_endOffset? (found : endOffset? source start = some stop) :
    stop ≤ Text.byteLength source := by
  obtain ⟨front, inner, behind, rfl, read, rfl, rfl⟩ := endOffset?_eq_some_iff.mp found
  rw [Text.byteLength_append _ behind]
  exact Nat.le_add_right _ _

/-- What ends at an offset is a word of the grammar, and every word of the grammar ends where its
group does. -/
theorem endOffset?_eq_some_iff_isGroupAt :
    endOffset? source start = some stop ↔ IsGroupAt source start stop := by
  have counted := outcomeAt_utf8 source start
  constructor
  · intro found
    rw [found] at counted
    obtain ⟨before, word, spelled, early, derived⟩ := Grammar.outcomeAt_eq_closed_iff.mp counted
    refine ⟨word, Text.slice?_eq_some_iff.mpr ⟨before, _, spelled, early, ?_⟩, derived⟩
    have sizes := congrArg List.length spelled
    have bounded := le_byteLength_of_endOffset? found
    rw [List.length_append, List.length_append, List.length_drop, Text.length_utf8] at sizes
    omega
  · rintro ⟨word, cut, derived⟩
    obtain ⟨before, behind, spelled, early, late⟩ := Text.slice?_eq_some_iff.mp cut
    rw [Grammar.outcomeAt_eq_closed_iff.mpr ⟨before, word, spelled, early, derived⟩] at counted
    cases found : endOffset? source start with
    | none => exact nomatch found ▸ counted
    | some other =>
      rw [found] at counted
      have left := congrArg List.length (Outcome.closed.inj counted)
      have sizes := congrArg List.length spelled
      have bounded := le_byteLength_of_endOffset? found
      rw [List.length_drop, Text.length_utf8] at left
      rw [List.length_append, List.length_append, Text.length_utf8] at sizes
      have same : other = stop := by omega
      rw [same]

/-- The end of a group is found exactly where a word of the grammar ends, for every text and every
offset in it, before it or past it. There is at most one such end. It stands between two characters,
directly behind a `}`. Counting byte by byte from the start of the group finds the same end, or runs
out of bytes if there is none, and the counter is never taken below zero on the way. -/
theorem endOffset?_recognises_the_grammar (source : List Char) (start : Nat) :
    (∀ stop, endOffset? source start = some stop ↔ IsGroupAt source start stop) ∧
      (∀ stop other, IsGroupAt source start stop → IsGroupAt source start other → stop = other) ∧
        (∀ stop, endOffset? source start = some stop →
          (Text.utf8 source)[stop - 1]? = some '}'.toUInt8 ∧
            ∃ before, before <+: source ∧ Text.byteLength before = stop) ∧
          outcomeAt (Text.utf8 source) start =
              (match endOffset? source start with
              | some stop => .closed ((Text.utf8 source).drop stop)
              | none => .unbalanced) ∧
            outcomeAt (Text.utf8 source) start ≠ .underflow := by
  have counted := outcomeAt_utf8 source start
  refine ⟨fun stop => endOffset?_eq_some_iff_isGroupAt, ?_, ?_, counted, ?_⟩
  · intro stop other first second
    have found := endOffset?_eq_some_iff_isGroupAt.mpr first
    have again := endOffset?_eq_some_iff_isGroupAt.mpr second
    exact Option.some.inj (found.symm.trans again)
  · exact fun stop found => (closes_of_endOffset? found).2
  · rw [counted]
    cases endOffset? source start <;> exact Outcome.noConfusion

end ScopedMarkup.Braces
