import ScopedMarkup.Text.Position

/-!
# Balanced brace groups

A brace group is an embedded script expression. It begins with `{` and ends with the
`}` that balances it. Braces inside quoted strings and template literals do not
count, and a backslash takes the meaning from whatever character follows it, in every
context.

A template literal is read by its own small rules: a backtick ends it unless an
interpolation is open, `${` opens an interpolation, `}` closes the innermost one, and
nothing else has a meaning there. In particular a quote or a lone `{` inside an
interpolation is an ordinary character.

A group that does not end within the text is no group. Whether a group stands at the
head of a text depends on the characters of the group alone, so text behind it never
changes the answer.
-/

namespace ScopedMarkup.Braces

/-- How the next character of an expression is to be read. -/
inductive Context where
  /-- Outside strings and templates, where quotes, backticks and braces count. -/
  | code
  /-- Inside a string, up to the next `quote`. -/
  | quoted (quote : Char)
  /-- Inside a template literal with so many interpolations open. -/
  | template (interpolations : Nat)
deriving DecidableEq, Repr

namespace Context

/-- The context behind a character of code other than a brace. -/
def behindCode (c : Char) : Context :=
  if c = '"' ∨ c = '\'' then .quoted c else if c = '`' then .template 0 else .code

/-- The context behind a character of a string. -/
def behindQuoted (quote c : Char) : Context := if c = quote then .code else .quoted quote

/-- The context behind a character of a template that opens no interpolation. A `}`
without an open interpolation is plain text. -/
def behindTemplate (interpolations : Nat) (c : Char) : Context :=
  if c = '`' ∧ interpolations = 0 then .code
  else if c = '}' then .template (interpolations - 1)
  else .template interpolations

end Context

/-- A reading that starts with further characters. -/
def keep (taken : List Char) (reading : Option (List Char × List Char)) :
    Option (List Char × List Char) :=
  reading.map fun (inner, behind) => (taken ++ inner, behind)

/-- The text up to the `}` that closes the outermost open group, and the text behind
it, when `enclosed` further groups are open inside that one. -/
def readInner : (enclosed : Nat) → Context → List Char → Option (List Char × List Char)
  | _, _, [] => none
  | enclosed, context, '\\' :: c :: rest => keep ['\\', c] (readInner enclosed context rest)
  | enclosed, .template interpolations, '$' :: '{' :: rest =>
    keep ['$', '{'] (readInner enclosed (.template (interpolations + 1)) rest)
  | enclosed, .template interpolations, c :: rest =>
    keep [c] (readInner enclosed (.behindTemplate interpolations c) rest)
  | enclosed, .quoted quote, c :: rest =>
    keep [c] (readInner enclosed (.behindQuoted quote c) rest)
  | enclosed, .code, '{' :: rest => keep ['{'] (readInner (enclosed + 1) .code rest)
  | 0, .code, '}' :: rest => some ([], rest)
  | enclosed + 1, .code, '}' :: rest => keep ['}'] (readInner enclosed .code rest)
  | enclosed, .code, c :: rest => keep [c] (readInner enclosed (.behindCode c) rest)

/-- The group at the head of a text: what stands between its braces, and the text
behind it. -/
def group? : List Char → Option (List Char × List Char)
  | '{' :: rest => readInner 0 .code rest
  | _ => none

/-- The byte offset directly behind the group that starts at a byte offset. -/
def endOffset? (text : List Char) (start : Nat) : Option Nat := do
  let fromStart ← Text.fromByte? start text
  let (inner, _) ← group? fromStart
  return start + Text.byteLength ('{' :: inner ++ ['}'])

theorem keep_eq_some_iff {taken inner behind : List Char}
    {reading : Option (List Char × List Char)} :
    keep taken reading = some (inner, behind) ↔
      ∃ inside, reading = some (inside, behind) ∧ inner = taken ++ inside := by
  cases reading with
  | none => exact ⟨fun impossible => (nomatch impossible), fun ⟨_, impossible, _⟩ => nomatch impossible⟩
  | some pair =>
    obtain ⟨inside, rest⟩ := pair
    constructor
    · intro kept
      obtain ⟨rfl, rfl⟩ := Prod.mk.inj (Option.some.inj kept)
      exact ⟨inside, rfl, rfl⟩
    · rintro ⟨inside', same, rfl⟩
      obtain ⟨rfl, rfl⟩ := Prod.mk.inj (Option.some.inj same)
      rfl

@[simp] theorem keep_none (taken : List Char) : keep taken none = none := rfl

/-- Keeping nothing changes nothing. -/
theorem keep_nil (reading : Option (List Char × List Char)) : keep [] reading = reading := by
  cases reading <;> rfl

/-- What is kept in turn is kept joined. -/
theorem keep_keep (first second : List Char) (reading : Option (List Char × List Char)) :
    keep first (keep second reading) = keep (first ++ second) reading := by
  cases reading <;> simp [keep]

@[simp] theorem readInner_nil (enclosed : Nat) (context : Context) :
    readInner enclosed context [] = none := by
  cases enclosed <;> cases context <;> rfl

/-- A reading accounts for every character: what is inside, the closing brace, and
what is behind. -/
theorem readInner_eq {enclosed : Nat} {context : Context} {text inner behind : List Char}
    (read : readInner enclosed context text = some (inner, behind)) :
    text = inner ++ '}' :: behind := by
  fun_induction readInner enclosed context text generalizing inner with
  | case1 => exact nomatch read
  | case7 rest =>
    obtain ⟨rfl, rfl⟩ := Prod.mk.inj (Option.some.inj read)
    rfl
  | _ =>
    rename_i inductionHypothesis
    obtain ⟨inside, reading, rfl⟩ := keep_eq_some_iff.mp read
    rw [inductionHypothesis reading]
    rfl

/-- A backslash takes the next character along, so one that does not stands at the end of the
text, and no reading follows it. -/
theorem ne_backslash_of_read {enclosed : Nat} {context : Context} {c : Char}
    {rest inner behind : List Char}
    (unescaped : ∀ next others, c = '\\' → rest = next :: others → False)
    (read : readInner enclosed context rest = some (inner, behind)) : c ≠ '\\' := by
  intro backslash
  cases rest with
  | nil => simp at read
  | cons next others => exact unescaped next others backslash rfl

/-- A group is read from its own text, whatever stands behind it. -/
theorem readInner_inner {enclosed : Nat} {context : Context} {text inner behind : List Char}
    (read : readInner enclosed context text = some (inner, behind)) (more : List Char) :
    readInner enclosed context (inner ++ '}' :: more) = some (inner, more) := by
  fun_induction readInner enclosed context text generalizing inner with
  | case1 => simp at read
  | case2 enclosed context c rest inductionHypothesis =>
    obtain ⟨inside, reading, rfl⟩ := keep_eq_some_iff.mp read
    exact keep_eq_some_iff.mpr ⟨inside, inductionHypothesis reading, rfl⟩
  | case3 enclosed interpolations rest inductionHypothesis =>
    obtain ⟨inside, reading, rfl⟩ := keep_eq_some_iff.mp read
    exact keep_eq_some_iff.mpr ⟨inside, inductionHypothesis reading, rfl⟩
  | case4 enclosed interpolations c rest unescaped unopened inductionHypothesis =>
    obtain ⟨inside, reading, rfl⟩ := keep_eq_some_iff.mp read
    have whole := readInner_eq reading
    rw [List.singleton_append, List.cons_append, readInner]
    · exact keep_eq_some_iff.mpr ⟨inside, inductionHypothesis reading, rfl⟩
    · exact fun _ _ backslash _ => ne_backslash_of_read unescaped reading backslash
    · intro others dollar opened
      cases inside with
      | nil => simp at opened
      | cons first inside =>
        refine unopened (inside ++ '}' :: behind) dollar ?_
        rw [whole, (List.cons.inj opened).1, List.cons_append]
  | case5 enclosed quote c rest unescaped inductionHypothesis =>
    obtain ⟨inside, reading, rfl⟩ := keep_eq_some_iff.mp read
    rw [List.singleton_append, List.cons_append, readInner]
    · exact keep_eq_some_iff.mpr ⟨inside, inductionHypothesis reading, rfl⟩
    · exact fun _ _ backslash _ => ne_backslash_of_read unescaped reading backslash
  | case6 enclosed rest inductionHypothesis =>
    obtain ⟨inside, reading, rfl⟩ := keep_eq_some_iff.mp read
    exact keep_eq_some_iff.mpr ⟨inside, inductionHypothesis reading, rfl⟩
  | case7 rest =>
    obtain ⟨rfl, rfl⟩ := Prod.mk.inj (Option.some.inj read)
    rfl
  | case8 enclosed rest inductionHypothesis =>
    obtain ⟨inside, reading, rfl⟩ := keep_eq_some_iff.mp read
    exact keep_eq_some_iff.mpr ⟨inside, inductionHypothesis reading, rfl⟩
  | case9 enclosed c rest unescaped unopened unclosed uninner inductionHypothesis =>
    obtain ⟨inside, reading, rfl⟩ := keep_eq_some_iff.mp read
    rw [List.singleton_append, List.cons_append, readInner]
    · exact keep_eq_some_iff.mpr ⟨inside, inductionHypothesis reading, rfl⟩
    · exact fun _ _ backslash _ => ne_backslash_of_read unescaped reading backslash
    · exact unopened
    · exact unclosed
    · exact uninner

/-- A group stands at the head of a text exactly between its braces. -/
theorem group?_eq {text inner behind : List Char} (read : group? text = some (inner, behind)) :
    text = '{' :: inner ++ '}' :: behind := by
  unfold group? at read
  split at read
  · rw [readInner_eq read, List.cons_append]
  · exact nomatch read

/-- A group ends at an offset if it is read behind the text before its start, and its own text
reaches from there to the offset. -/
theorem endOffset?_eq_some_iff {source : List Char} {start stop : Nat} :
    endOffset? source start = some stop ↔
      ∃ front inner behind, source = front ++ ('{' :: inner ++ ['}']) ++ behind ∧
        group? ('{' :: inner ++ ['}'] ++ behind) = some (inner, behind) ∧
          Text.byteLength front = start ∧
            Text.byteLength (front ++ ('{' :: inner ++ ['}'])) = stop := by
  constructor
  · intro found
    obtain ⟨rest, fromStart, inGroup⟩ := Option.bind_eq_some_iff.mp found
    obtain ⟨⟨inner, behind⟩, read, ends⟩ := Option.bind_eq_some_iff.mp inGroup
    obtain ⟨front, rfl, rfl⟩ := (Text.fromByte?_eq_some_iff ..).mp fromStart
    have spelled : rest = '{' :: inner ++ ['}'] ++ behind := by
      rw [group?_eq read]
      simp
    have whole : front ++ rest = front ++ ('{' :: inner ++ ['}']) ++ behind := by
      rw [spelled, List.append_assoc front]
    refine ⟨front, inner, behind, whole, spelled ▸ read, rfl, ?_⟩
    rw [Text.byteLength_append]
    exact Option.some.inj ends
  · rintro ⟨front, inner, behind, rfl, read, rfl, rfl⟩
    rw [endOffset?, List.append_assoc front, Text.fromByte?_append]
    show ((group? ('{' :: inner ++ ['}'] ++ behind)).bind fun _ => _) = _
    rw [read, Text.byteLength_append]
    rfl

end ScopedMarkup.Braces
