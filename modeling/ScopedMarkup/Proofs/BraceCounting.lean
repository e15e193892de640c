import ScopedMarkup.Braces
import ScopedMarkup.Proofs.Utf8

/-!
# Counting braces byte by byte

The end of a group can be found by going over the bytes of a text with a counter of open braces.
The counter begins at zero in front of the group, and the group ends where it is back at zero. One
step looks at a byte and the byte behind it, and takes in both where the first one says so.

All bytes that mean something are below 128, so the wide bytes of a character are passed over like
any other character of code, of a string or of a template. Going byte by byte therefore finds what
reading by characters finds. Along the way the counter is never taken below zero: a step that would
do so is kept apart, as an outcome of its own, and never comes about.
-/

namespace ScopedMarkup.Braces

namespace Counting

/-- How the next byte is to be read. -/
inductive Mode where
  /-- Outside strings and templates. -/
  | code
  /-- Inside a string, up to the next `quote`. -/
  | quoted (quote : UInt8)
  /-- Inside a template literal with so many interpolations open. -/
  | template (interpolations : Nat)
deriving DecidableEq, Repr

/-- What a byte comes to. -/
inductive Move where
  /-- Counting goes on behind the byte, or behind the next one too if that is `skipped`. -/
  | on (depth : Nat) (mode : Mode) (skipped : Bool)
  /-- The byte closes the group. -/
  | closed
  /-- The byte takes the counter below zero. -/
  | underflow
deriving DecidableEq, Repr

/-- The counter behind a closing brace. -/
def down : Nat → Move
  | 0 => .underflow
  | 1 => .closed
  | depth + 2 => .on (depth + 1) .code false

/-- What a byte comes to in a mode, when `next` stands behind it. -/
def move (depth : Nat) (mode : Mode) (byte : UInt8) (next : Option UInt8) : Move :=
  if byte = '\\'.toUInt8 ∧ next.isSome then .on depth mode true
  else match mode with
    | .quoted quote => .on depth (if byte = quote then .code else mode) false
    | .template interpolations =>
      if byte = '`'.toUInt8 ∧ interpolations = 0 then .on depth .code false
      else if byte = '$'.toUInt8 ∧ next = some '{'.toUInt8 then
        .on depth (.template (interpolations + 1)) true
      else if byte = '}'.toUInt8 then .on depth (.template (interpolations - 1)) false
      else .on depth mode false
    | .code =>
      if byte = '"'.toUInt8 ∨ byte = '\''.toUInt8 then .on depth (.quoted byte) false
      else if byte = '`'.toUInt8 then .on depth (.template 0) false
      else if byte = '{'.toUInt8 then .on (depth + 1) .code false
      else if byte = '}'.toUInt8 then down depth
      else .on depth .code false

/-- What counting over bytes comes to. -/
inductive Outcome where
  /-- The group is closed, and `behind` stands behind it. -/
  | closed (behind : List UInt8)
  /-- The bytes end before the group. -/
  | unbalanced
  /-- The counter was taken below zero. -/
  | underflow
deriving DecidableEq, Repr

/-- Counts over bytes, the first of which belongs to the one before it if it is `skipped`. -/
def run : (depth : Nat) → Mode → (skipped : Bool) → List UInt8 → Outcome
  | _, _, _, [] => .unbalanced
  | depth, mode, true, _ :: rest => run depth mode false rest
  | depth, mode, false, byte :: rest =>
    match move depth mode byte rest.head? with
    | .on depth mode skipped => run depth mode skipped rest
    | .closed => .closed rest
    | .underflow => .underflow

/-- What counting comes to from an offset on, where a group has to begin. -/
def outcomeAt (bytes : List UInt8) (start : Nat) : Outcome :=
  if bytes[start]? = some '{'.toUInt8 then run 0 .code false (bytes.drop start) else .unbalanced

variable {depth : Nat} {mode : Mode}

@[simp] theorem run_nil (skipped : Bool) : run depth mode skipped [] = .unbalanced := by
  cases skipped <;> rfl

/-- One step on. -/
theorem run_of_move {depth' : Nat} {mode' : Mode} {byte : UInt8} {rest : List UInt8}
    (moves : move depth mode byte rest.head? = .on depth' mode' false) :
    run depth mode false (byte :: rest) = run depth' mode' false rest := by
  rw [run, moves]

/-- One step over two bytes. -/
theorem run_of_move_over {depth' : Nat} {mode' : Mode} {byte next : UInt8} {rest : List UInt8}
    (moves : move depth mode byte (some next) = .on depth' mode' true) :
    run depth mode false (byte :: next :: rest) = run depth' mode' false rest := by
  rw [run, List.head?_cons, moves]
  rfl

/-- A backslash takes in the byte behind it. -/
theorem run_escape (next : UInt8) (rest : List UInt8) :
    run depth mode false ('\\'.toUInt8 :: next :: rest) = run depth mode false rest :=
  run_of_move_over (by simp [move])

/-- A byte of a string that escapes none. -/
theorem run_quoted_byte {quote byte : UInt8} {rest : List UInt8}
    (unescaped : ¬(byte = '\\'.toUInt8 ∧ rest.head?.isSome = true)) :
    run depth (.quoted quote) false (byte :: rest) =
      run depth (if byte = quote then .code else .quoted quote) false rest :=
  run_of_move (by rw [move, if_neg unescaped])

/-- A byte of a template that escapes none and opens no interpolation. -/
theorem run_template_byte {interpolations : Nat} {byte : UInt8} {rest : List UInt8}
    (unescaped : ¬(byte = '\\'.toUInt8 ∧ rest.head?.isSome = true))
    (unopened : ¬(byte = '$'.toUInt8 ∧ rest.head? = some '{'.toUInt8)) :
    run depth (.template interpolations) false (byte :: rest) =
      run depth (if byte = '`'.toUInt8 ∧ interpolations = 0 then .code
        else if byte = '}'.toUInt8 then .template (interpolations - 1)
        else .template interpolations) false rest := by
  refine run_of_move ?_
  rw [move, if_neg unescaped]
  simp only [if_neg unopened]
  split
  · rfl
  · split <;> rfl

/-- A byte of code that escapes none and is no brace. -/
theorem run_code_byte {byte : UInt8} {rest : List UInt8}
    (unescaped : ¬(byte = '\\'.toUInt8 ∧ rest.head?.isSome = true))
    (unopened : byte ≠ '{'.toUInt8) (unclosed : byte ≠ '}'.toUInt8) :
    run depth .code false (byte :: rest) =
      run depth (if byte = '"'.toUInt8 ∨ byte = '\''.toUInt8 then .quoted byte
        else if byte = '`'.toUInt8 then .template 0 else .code) false rest := by
  refine run_of_move ?_
  rw [move, if_neg unescaped]
  simp only [if_neg unopened, if_neg unclosed]
  split
  · rfl
  · split <;> rfl

/-- An interpolation is opened by two bytes. -/
theorem run_interpolation (interpolations : Nat) (rest : List UInt8) :
    run depth (.template interpolations) false ('$'.toUInt8 :: '{'.toUInt8 :: rest) =
      run depth (.template (interpolations + 1)) false rest := by
  have marks : '$'.toUInt8 ≠ '\\'.toUInt8 ∧ '$'.toUInt8 ≠ '`'.toUInt8 := by decide
  exact run_of_move_over (by simp [move, marks])

/-- A brace of code that is opened takes the counter up. -/
theorem run_open (rest : List UInt8) :
    run depth .code false ('{'.toUInt8 :: rest) = run (depth + 1) .code false rest := by
  have marks : '{'.toUInt8 ≠ '\\'.toUInt8 ∧ '{'.toUInt8 ≠ '"'.toUInt8 ∧
      '{'.toUInt8 ≠ '\''.toUInt8 ∧ '{'.toUInt8 ≠ '`'.toUInt8 := by
    decide
  exact run_of_move (by simp [move, marks])

/-- A brace of code that is closed takes the counter down. -/
theorem move_close (next : Option UInt8) : move depth .code '}'.toUInt8 next = down depth := by
  have marks : '}'.toUInt8 ≠ '\\'.toUInt8 ∧ '}'.toUInt8 ≠ '"'.toUInt8 ∧
      '}'.toUInt8 ≠ '\''.toUInt8 ∧ '}'.toUInt8 ≠ '`'.toUInt8 ∧ '}'.toUInt8 ≠ '{'.toUInt8 := by
    decide
  simp [move, marks]

/-- The last brace closes the group. -/
theorem run_close_last (rest : List UInt8) :
    run 1 .code false ('}'.toUInt8 :: rest) = .closed rest := by
  rw [run, move_close]
  rfl

/-- Any other brace closes a group inside. -/
theorem run_close_inner (rest : List UInt8) :
    run (depth + 2) .code false ('}'.toUInt8 :: rest) = run (depth + 1) .code false rest :=
  run_of_move (move_close _)

/-- A wide byte means nothing, in a string that ends with a narrow quote either. -/
theorem run_wide {byte : UInt8} (wide : Text.isWide byte = true)
    (narrow : ∀ quote, mode = .quoted quote → Text.isWide quote = false) (rest : List UInt8) :
    run depth mode false (byte :: rest) = run depth mode false rest := by
  have other : ∀ mark : UInt8, Text.isWide mark = false → byte ≠ mark := by
    rintro mark isNarrow rfl
    rw [wide] at isNarrow
    exact absurd isNarrow.symm Bool.false_ne_true
  have marks : byte ≠ '\\'.toUInt8 ∧ byte ≠ '`'.toUInt8 ∧ byte ≠ '$'.toUInt8 ∧
      byte ≠ '}'.toUInt8 ∧ byte ≠ '"'.toUInt8 ∧ byte ≠ '\''.toUInt8 ∧ byte ≠ '{'.toUInt8 := by
    refine ⟨?_, ?_, ?_, ?_, ?_, ?_, ?_⟩ <;> exact other _ (by decide)
  obtain ⟨notEscape, notTick, notDollar, notShut, notDouble, notSingle, notOpen⟩ := marks
  cases mode with
  | code =>
    rw [run_code_byte (fun both => notEscape both.1) notOpen notShut]
    simp [notTick, notDouble, notSingle]
  | quoted quote =>
    rw [run_quoted_byte fun both => notEscape both.1, if_neg (other quote (narrow quote rfl))]
  | template interpolations =>
    rw [run_template_byte (fun both => notEscape both.1) fun both => notDollar both.1]
    simp [notTick, notShut]

/-- Wide bytes mean nothing. -/
theorem run_allWide {bytes : List UInt8} (wide : ∀ byte ∈ bytes, Text.isWide byte = true)
    (narrow : ∀ quote, mode = .quoted quote → Text.isWide quote = false) (rest : List UInt8) :
    run depth mode false (bytes ++ rest) = run depth mode false rest := by
  induction bytes with
  | nil => rfl
  | cons byte others inductionHypothesis =>
    rw [List.cons_append, run_wide (wide byte List.mem_cons_self) narrow,
      inductionHypothesis fun other member => wide other (List.mem_cons_of_mem _ member)]

/-- The mode for bytes that a context for characters is. -/
def modeOf : Context → Mode
  | .code => .code
  | .quoted quote => .quoted quote.toUInt8
  | .template interpolations => .template interpolations

@[simp] theorem modeOf_code : modeOf .code = .code := rfl

@[simp] theorem modeOf_quoted (quote : Char) : modeOf (.quoted quote) = .quoted quote.toUInt8 := rfl

@[simp] theorem modeOf_template (interpolations : Nat) :
    modeOf (.template interpolations) = .template interpolations := rfl

/-- A context in which a string ends with a character below U+0080. -/
def Narrow : Context → Prop
  | .quoted quote => quote.toNat < 128
  | _ => True

theorem narrow_behindTemplate (interpolations : Nat) (c : Char) :
    Narrow (.behindTemplate interpolations c) := by
  unfold Context.behindTemplate
  split
  · trivial
  · split <;> trivial

theorem narrow_behindQuoted {quote : Char} (narrow : quote.toNat < 128) (c : Char) :
    Narrow (.behindQuoted quote c) := by
  unfold Context.behindQuoted
  split
  · trivial
  · exact narrow

theorem narrow_behindCode (c : Char) : Narrow (.behindCode c) := by
  unfold Context.behindCode
  split
  · rename_i quoted
    rcases quoted with rfl | rfl <;> simp [Narrow]
  · split <;> trivial

/-- A character below U+0080 and its byte. -/
theorem toUInt8_eq_iff {c mark : Char} (small : c.toNat < 128) (smallMark : mark.toNat < 128) :
    c.toUInt8 = mark.toUInt8 ↔ c = mark := by
  constructor
  · intro same
    have codes := congrArg UInt8.toNat same
    have left : c.toUInt8.toNat = c.toNat % 256 := UInt32.toNat_toUInt8 c.val
    have right : mark.toUInt8.toNat = mark.toNat % 256 := UInt32.toNat_toUInt8 mark.val
    rw [left, right, Nat.mod_eq_of_lt (by omega), Nat.mod_eq_of_lt (by omega)] at codes
    exact Char.toNat_inj.mp codes
  · rintro rfl
    rfl

/-- A character below U+0080 is its byte. -/
theorem utf8_cons_small {c : Char} (small : c.toNat < 128) (rest : List Char) :
    Text.utf8 (c :: rest) = c.toUInt8 :: Text.utf8 rest := by
  rw [Text.utf8_cons, Text.utf8EncodeChar_of_small small]
  rfl

/-- Which narrow byte is the first one of a text is told by the first character. -/
theorem head?_utf8 {text : List Char} {mark : Char} (smallMark : mark.toNat < 128) :
    (Text.utf8 text).head? = some mark.toUInt8 ↔ text.head? = some mark := by
  cases text with
  | nil => simp
  | cons c rest =>
    obtain ⟨first, more, encoded, _, ⟨_, small⟩ | ⟨wide, large⟩⟩ := Text.exists_utf8EncodeChar c
    · rw [utf8_cons_small small, List.head?_cons, List.head?_cons, Option.some_inj, Option.some_inj,
        toUInt8_eq_iff small smallMark]
    · rw [Text.utf8_cons, encoded, List.cons_append, List.head?_cons, List.head?_cons,
        Option.some_inj, Option.some_inj]
      constructor
      · rintro rfl
        have code : mark.toUInt8.toNat = mark.toNat % 256 := UInt32.toNat_toUInt8 mark.val
        rw [Text.isWide, decide_eq_true_eq, code, Nat.mod_eq_of_lt (by omega)] at wide
        omega
      · rintro rfl
        omega

/-- A text has bytes if it has characters. -/
theorem isSome_head?_utf8 (text : List Char) :
    (Text.utf8 text).head?.isSome = text.head?.isSome := by
  cases text with
  | nil => rfl
  | cons c rest =>
    obtain ⟨first, more, encoded, _⟩ := Text.exists_utf8EncodeChar c
    rw [Text.utf8_cons, encoded]
    rfl

/-- The mode of a narrow context ends its string with a narrow byte. -/
theorem narrow_modeOf {context : Context} (narrow : Narrow context) :
    ∀ quote, modeOf context = .quoted quote → Text.isWide quote = false := by
  intro quote same
  cases context with
  | code => cases same
  | template interpolations => cases same
  | quoted mark =>
    have code : mark.toUInt8.toNat = mark.toNat % 256 := UInt32.toNat_toUInt8 mark.val
    have small : mark.toNat < 128 := narrow
    obtain rfl := Mode.quoted.inj same
    rw [Text.isWide, decide_eq_false_iff_not, code]
    omega

/-- Counting over the bytes of a character that means nothing in a context. -/
theorem run_large {context : Context} (narrow : Narrow context) {c : Char} (large : 128 ≤ c.toNat)
    (rest : List Char) : run depth (modeOf context) false (Text.utf8 (c :: rest)) =
      run depth (modeOf context) false (Text.utf8 rest) := by
  obtain ⟨first, more, encoded, wideMore, ⟨_, small⟩ | ⟨wide, _⟩⟩ := Text.exists_utf8EncodeChar c
  · omega
  · rw [Text.utf8_cons]
    refine run_allWide ?_ (narrow_modeOf narrow) _
    rw [encoded]
    intro byte member
    rcases List.mem_cons.mp member with rfl | later
    · exact wide
    · exact wideMore byte later

/-- What a reading by characters comes to. -/
def ofReading : Option (List Char × List Char) → Outcome
  | some (_, behind) => .closed (Text.utf8 behind)
  | none => .unbalanced

@[simp] theorem ofReading_keep (taken : List Char) (reading : Option (List Char × List Char)) :
    ofReading (keep taken reading) = ofReading reading := by
  cases reading <;> rfl

/-- A narrow character that no byte behind it is escaped by. -/
theorem not_escapes {c : Char} (small : c.toNat < 128) {rest : List Char}
    (unescaped : c = '\\' → rest.head?.isSome = false) :
    ¬(c.toUInt8 = '\\'.toUInt8 ∧ (Text.utf8 rest).head?.isSome = true) := by
  rintro ⟨escape, present⟩
  rw [toUInt8_eq_iff small (by decide)] at escape
  rw [isSome_head?_utf8, unescaped escape] at present
  exact Bool.false_ne_true present

/-- A narrow character of a template that neither escapes nor opens an interpolation. -/
theorem run_template_small {interpolations : Nat} {c : Char} (small : c.toNat < 128)
    {rest : List Char} (unescaped : c = '\\' → rest.head?.isSome = false)
    (unopened : c = '$' → rest.head? ≠ some '{') :
    run depth (.template interpolations) false (Text.utf8 (c :: rest)) =
      run depth (modeOf (.behindTemplate interpolations c)) false (Text.utf8 rest) := by
  have notOpen : ¬(c.toUInt8 = '$'.toUInt8 ∧ (Text.utf8 rest).head? = some '{'.toUInt8) := by
    rintro ⟨dollar, brace⟩
    exact unopened ((toUInt8_eq_iff small (by decide)).mp dollar) ((head?_utf8 (by decide)).mp brace)
  have tick : c.toUInt8 = '`'.toUInt8 ↔ c = '`' := toUInt8_eq_iff small (by decide)
  have shut : c.toUInt8 = '}'.toUInt8 ↔ c = '}' := toUInt8_eq_iff small (by decide)
  rw [utf8_cons_small small, run_template_byte (not_escapes small unescaped) notOpen]
  simp only [tick, shut, Context.behindTemplate, apply_ite modeOf, modeOf_code, modeOf_template]

/-- A narrow character of a string that does not escape. -/
theorem run_quoted_small {quote c : Char} (narrow : quote.toNat < 128) (small : c.toNat < 128)
    {rest : List Char} (unescaped : c = '\\' → rest.head?.isSome = false) :
    run depth (.quoted quote.toUInt8) false (Text.utf8 (c :: rest)) =
      run depth (modeOf (.behindQuoted quote c)) false (Text.utf8 rest) := by
  have ends : c.toUInt8 = quote.toUInt8 ↔ c = quote := toUInt8_eq_iff small narrow
  rw [utf8_cons_small small, run_quoted_byte (not_escapes small unescaped)]
  simp only [ends, Context.behindQuoted, apply_ite modeOf, modeOf_code, modeOf_quoted]

/-- A narrow character of code that is no brace and does not escape. -/
theorem run_code_small {c : Char} (small : c.toNat < 128) {rest : List Char}
    (unescaped : c = '\\' → rest.head?.isSome = false) (unopened : c ≠ '{') (unclosed : c ≠ '}') :
    run depth .code false (Text.utf8 (c :: rest)) =
      run depth (modeOf (.behindCode c)) false (Text.utf8 rest) := by
  have marks : ∀ mark : Char, mark.toNat < 128 → (c.toUInt8 = mark.toUInt8 ↔ c = mark) :=
    fun mark => toUInt8_eq_iff small
  have notOpen : c.toUInt8 ≠ '{'.toUInt8 := fun same => unopened ((marks '{' (by decide)).mp same)
  have notShut : c.toUInt8 ≠ '}'.toUInt8 := fun same => unclosed ((marks '}' (by decide)).mp same)
  rw [utf8_cons_small small, run_code_byte (not_escapes small unescaped) notOpen notShut]
  simp only [marks '"' (by decide), marks '\'' (by decide), marks '`' (by decide),
    Context.behindCode, apply_ite modeOf, modeOf_code, modeOf_quoted, modeOf_template]

/-- A wide character is none of the marks. -/
theorem ne_of_large {c mark : Char} (large : 128 ≤ c.toNat) (small : mark.toNat < 128) : c ≠ mark := by
  rintro rfl
  omega

/-- A wide character leaves a template as it is. -/
theorem behindTemplate_of_large {c : Char} (large : 128 ≤ c.toNat) (interpolations : Nat) :
    Context.behindTemplate interpolations c = .template interpolations := by
  have notTick : c ≠ '`' := ne_of_large large (by decide)
  have notShut : c ≠ '}' := ne_of_large large (by decide)
  simp [Context.behindTemplate, notTick, notShut]

/-- A wide character leaves code as it is. -/
theorem behindCode_of_large {c : Char} (large : 128 ≤ c.toNat) : Context.behindCode c = .code := by
  have notDouble : c ≠ '"' := ne_of_large large (by decide)
  have notSingle : c ≠ '\'' := ne_of_large large (by decide)
  have notTick : c ≠ '`' := ne_of_large large (by decide)
  simp [Context.behindCode, notDouble, notSingle, notTick]

/-- A character of a template that neither escapes nor opens an interpolation. -/
theorem run_template {interpolations : Nat} {c : Char} {rest : List Char}
    (unescaped : c = '\\' → rest.head?.isSome = false)
    (unopened : c = '$' → rest.head? ≠ some '{') :
    run depth (.template interpolations) false (Text.utf8 (c :: rest)) =
      run depth (modeOf (.behindTemplate interpolations c)) false (Text.utf8 rest) := by
  rcases Nat.lt_or_ge c.toNat 128 with small | large
  · exact run_template_small small unescaped unopened
  · have narrow : Narrow (.template interpolations) := trivial
    rw [behindTemplate_of_large large]
    exact run_large narrow large rest

/-- A character of a string that does not escape. -/
theorem run_quoted {quote c : Char} (narrow : quote.toNat < 128) {rest : List Char}
    (unescaped : c = '\\' → rest.head?.isSome = false) :
    run depth (.quoted quote.toUInt8) false (Text.utf8 (c :: rest)) =
      run depth (modeOf (.behindQuoted quote c)) false (Text.utf8 rest) := by
  rcases Nat.lt_or_ge c.toNat 128 with small | large
  · exact run_quoted_small narrow small unescaped
  · have narrowContext : Narrow (.quoted quote) := narrow
    rw [Context.behindQuoted, if_neg (ne_of_large large narrow)]
    exact run_large narrowContext large rest

/-- A character of code that is no brace and does not escape. -/
theorem run_code {c : Char} {rest : List Char} (unescaped : c = '\\' → rest.head?.isSome = false)
    (unopened : c ≠ '{') (unclosed : c ≠ '}') :
    run depth .code false (Text.utf8 (c :: rest)) =
      run depth (modeOf (.behindCode c)) false (Text.utf8 rest) := by
  rcases Nat.lt_or_ge c.toNat 128 with small | large
  · exact run_code_small small unescaped unopened unclosed
  · have narrow : Narrow .code := trivial
    rw [behindCode_of_large large]
    exact run_large narrow large rest

/-- An escape takes in the whole character behind the backslash. -/
theorem run_escaped {context : Context} (narrow : Narrow context) (c : Char) (rest : List Char) :
    run depth (modeOf context) false (Text.utf8 ('\\' :: c :: rest)) =
      run depth (modeOf context) false (Text.utf8 rest) := by
  obtain ⟨first, more, encoded, wideMore, _⟩ := Text.exists_utf8EncodeChar c
  rw [utf8_cons_small (by decide), Text.utf8_cons, encoded, List.cons_append, run_escape]
  exact run_allWide wideMore (narrow_modeOf narrow) _

/-- What the cases of a reading say of a backslash: nothing stands behind it. -/
theorem isSome_head?_of_unescaped {c : Char} {rest : List Char}
    (unescaped : ∀ next others, c = '\\' → rest = next :: others → False) :
    c = '\\' → rest.head?.isSome = false := by
  intro escape
  cases rest with
  | nil => rfl
  | cons next others => exact (unescaped next others escape rfl).elim

/-- Counting over the bytes of a text comes to what reading its characters comes to, and the
counter is one more than the number of groups that are open inside. -/
theorem run_utf8 {enclosed : Nat} {context : Context} (narrow : Narrow context)
    (text : List Char) : run (enclosed + 1) (modeOf context) false (Text.utf8 text) =
      ofReading (readInner enclosed context text) := by
  fun_induction readInner enclosed context text with
  | case1 => simp [ofReading]
  | case2 enclosed context c rest inductionHypothesis =>
    rw [run_escaped narrow, ofReading_keep, inductionHypothesis narrow]
  | case3 enclosed interpolations rest inductionHypothesis =>
    rw [ofReading_keep, ← inductionHypothesis trivial, utf8_cons_small (by decide),
      utf8_cons_small (by decide)]
    exact run_interpolation interpolations _
  | case4 enclosed interpolations c rest unescaped unopened inductionHypothesis =>
    have notOpen : c = '$' → rest.head? ≠ some '{' := by
      intro dollar brace
      obtain ⟨others, rfl⟩ := List.head?_eq_some_iff.mp brace
      exact unopened others dollar rfl
    rw [ofReading_keep, ← inductionHypothesis (narrow_behindTemplate interpolations c)]
    exact run_template (isSome_head?_of_unescaped unescaped) notOpen
  | case5 enclosed quote c rest unescaped inductionHypothesis =>
    rw [ofReading_keep, ← inductionHypothesis (narrow_behindQuoted narrow c)]
    exact run_quoted narrow (isSome_head?_of_unescaped unescaped)
  | case6 enclosed rest inductionHypothesis =>
    rw [ofReading_keep, ← inductionHypothesis trivial, utf8_cons_small (by decide)]
    exact run_open _
  | case7 rest =>
    rw [utf8_cons_small (by decide)]
    exact run_close_last _
  | case8 enclosed rest inductionHypothesis =>
    rw [ofReading_keep, ← inductionHypothesis trivial, utf8_cons_small (by decide)]
    exact run_close_inner _
  | case9 enclosed c rest unescaped unopened unclosed uninner inductionHypothesis =>
    have notShut : c ≠ '}' := by
      intro shut
      cases enclosed with
      | zero => exact unclosed rfl shut
      | succ enclosed => exact uninner enclosed rfl shut
    rw [ofReading_keep, ← inductionHypothesis (narrow_behindCode c)]
    exact run_code (isSome_head?_of_unescaped unescaped) unopened notShut

/-- Counting from the first brace of a text comes to what reading its group comes to. -/
theorem run_group (text : List Char) :
    run 0 .code false (Text.utf8 ('{' :: text)) = ofReading (group? ('{' :: text)) := by
  have narrow : Narrow .code := trivial
  rw [utf8_cons_small (by decide), run_open]
  exact run_utf8 narrow text

/-- A brace among the bytes of a text is a character of the text. -/
theorem exists_brace {source : List Char} {start : Nat}
    (brace : (Text.utf8 source)[start]? = some '{'.toUInt8) :
    ∃ front rest, source = front ++ '{' :: rest ∧ Text.byteLength front = start := by
  obtain ⟨inside, byte⟩ := List.getElem?_eq_some_iff.mp brace
  have spelled : Text.utf8 source =
      (Text.utf8 source).take start ++ '{'.toUInt8 :: (Text.utf8 source).drop (start + 1) := by
    rw [← byte, ← List.drop_eq_getElem_cons inside, List.take_append_drop]
  obtain ⟨front, c, back, rfl, shown, _, code⟩ := Text.exists_char_of_byte (by decide) spelled
  have same : c = '{' := Char.toNat_inj.mp (code.trans (by decide))
  refine ⟨front, back, by rw [same], ?_⟩
  rw [← Text.length_utf8, shown, List.length_take]
  omega

/-- Counting from an offset on ends behind the group that starts there, or comes to the end of the
bytes if there is no such group. In no case is the counter taken below zero. -/
theorem outcomeAt_utf8 (source : List Char) (start : Nat) :
    outcomeAt (Text.utf8 source) start =
      match endOffset? source start with
      | some stop => .closed ((Text.utf8 source).drop stop)
      | none => .unbalanced := by
  unfold outcomeAt
  split
  · rename_i brace
    obtain ⟨front, rest, rfl, rfl⟩ := exists_brace brace
    have here : (Text.utf8 (front ++ '{' :: rest)).drop (Text.byteLength front) =
        Text.utf8 ('{' :: rest) := by
      rw [Text.utf8_append, ← Text.length_utf8 front, List.drop_left]
    rw [here, run_group, endOffset?, Text.fromByte?_append]
    cases read : group? ('{' :: rest) with
    | none => simp [read, ofReading]
    | some pair =>
      obtain ⟨inner, behind⟩ := pair
      have whole : front ++ '{' :: rest = (front ++ ('{' :: inner ++ ['}'])) ++ behind := by
        rw [group?_eq read]
        simp
      have behindGroup : (Text.utf8 (front ++ '{' :: rest)).drop
          (Text.byteLength front + Text.byteLength ('{' :: inner ++ ['}'])) = Text.utf8 behind := by
        rw [whole, Text.utf8_append, ← Text.byteLength_append, ← Text.length_utf8, List.drop_left]
      simp only [Option.bind_eq_bind, Option.bind_some, read, ofReading, Option.pure_def]
      rw [behindGroup]
  · rename_i noBrace
    cases found : endOffset? source start with
    | none => rfl
    | some stop =>
      obtain ⟨rest, fromStart, inGroup⟩ := Option.bind_eq_some_iff.mp found
      obtain ⟨⟨inner, behind⟩, read, _⟩ := Option.bind_eq_some_iff.mp inGroup
      obtain ⟨front, rfl, rfl⟩ := (Text.fromByte?_eq_some_iff ..).mp fromStart
      refine absurd ?_ noBrace
      rw [group?_eq read, Text.utf8_append, ← Text.length_utf8, List.getElem?_append_right
        (Nat.le_refl _), Nat.sub_self, List.cons_append, utf8_cons_small (by decide)]
      rfl

end Counting

end ScopedMarkup.Braces
