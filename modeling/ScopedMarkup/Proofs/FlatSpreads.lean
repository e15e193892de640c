import Mathlib.Data.List.TakeWhile
import ScopedMarkup.CssTarget.Forwarding
import ScopedMarkup.Proofs.TagStart

/-!
# Where flat spreads and flat tags end

A flat spread is read exactly where one is opened and `cssTarget` stands before the first `}`
behind the dots. Text behind that `}` does not matter, so a reading stays when text is
appended; but an opening that is not completed may be completed by appended text.

A flat tag takes in the last spread before the first `>`. Whether there is one at all only
depends on the spreads that begin before that `>`. If every flat tag that begins in a text
also ends in it, then the text is apart from what follows.

A pass keeps what it reads nothing in and goes on behind what it rewrites. Over a text that
starts no tag behind its head it rewrites the flat tag at the head, or nothing.
-/

namespace ScopedMarkup

namespace CssSpread

/-- Whether a spread is opened at the head of a text. -/
def Opens (text : List Char) : Prop :=
  ∃ blanks inside, text = '{' :: blanks ++ '.' :: '.' :: '.' :: inside ∧
    ∀ c ∈ blanks, Text.isScriptBlank c = true

/-- Behind the opening brace the blanks are taken off, and the dots are compared. -/
theorem opens_cons_iff {c : Char} {rest : List Char} :
    Opens (c :: rest) ↔ c = '{' ∧ ['.', '.', '.'] <+: rest.dropWhile Text.isScriptBlank := by
  constructor
  · rintro ⟨blanks, inside, spelled, blank⟩
    obtain ⟨rfl, rfl⟩ := List.cons.inj spelled
    refine ⟨rfl, inside, ?_⟩
    have dot : Text.isScriptBlank '.' = false := by decide
    show '.' :: '.' :: '.' :: inside =
      (blanks ++ '.' :: '.' :: '.' :: inside).dropWhile Text.isScriptBlank
    rw [List.dropWhile_append_of_pos blank, List.dropWhile_cons, dot]
    rfl
  · rintro ⟨rfl, inside, spelled⟩
    refine ⟨rest.takeWhile Text.isScriptBlank, inside, ?_, fun _ => List.mem_takeWhile_imp⟩
    have joined := List.takeWhile_append_dropWhile (p := Text.isScriptBlank) (l := rest)
    rw [← spelled] at joined
    simpa using joined.symm

instance : DecidablePred Opens
  | [] => isFalse fun ⟨_, _, spelled, _⟩ => nomatch spelled
  | _ :: _ => decidable_of_iff _ opens_cons_iff.symm

/-- A spread is read exactly where it is written in front of something. -/
theorem read_eq_some_iff {input : List Char} {spread : CssSpread} :
    read? input = some spread ↔
      (∃ behind, input = spread.text ++ behind) ∧
        (∀ c ∈ spread.blanks, Text.isScriptBlank c = true) ∧ '}' ∉ spread.body ∧
          cssTargetName <:+: spread.body := by
  constructor
  · intro read
    refine ⟨eq_text_append_of_read read, ?_⟩
    unfold read? at read
    split at read
    · rename_i rest
      split at read
      · split at read
        · rename_i body behind cut
          split at read
          · rename_i mentioned
            rw [← Option.some.inj read]
            exact ⟨fun c member => List.mem_takeWhile_imp member,
              ((Text.cutAt?_eq_some_iff ..).mp cut).2, (Text.contains_iff _ _).mp mentioned⟩
          · simp at read
        · simp at read
      · simp at read
    · simp at read
  · obtain ⟨blanks, body⟩ := spread
    rintro ⟨⟨behind, rfl⟩, blank, absent, mentioned⟩
    have dot : Text.isScriptBlank '.' = false := by decide
    have spelled : (CssSpread.mk blanks body).text ++ behind =
        '{' :: (blanks ++ '.' :: '.' :: '.' :: (body ++ '}' :: behind)) := by
      simp [text]
    have left : (blanks ++ '.' :: '.' :: '.' :: (body ++ '}' :: behind)).dropWhile
        Text.isScriptBlank = '.' :: '.' :: '.' :: (body ++ '}' :: behind) := by
      rw [List.dropWhile_append_of_pos blank, List.dropWhile_cons, if_neg (by simp [dot])]
    have taken : (blanks ++ '.' :: '.' :: '.' :: (body ++ '}' :: behind)).takeWhile
        Text.isScriptBlank = blanks := by
      rw [List.takeWhile_append_of_pos blank, List.takeWhile_cons, if_neg (by simp [dot]),
        List.append_nil]
    have cut : Text.cutAt? '}' (body ++ '}' :: behind) = some (body, behind) :=
      (Text.cutAt?_eq_some_iff ..).mpr ⟨rfl, absent⟩
    simp [spelled, read?, left, taken, cut, (Text.contains_iff _ _).mpr mentioned]

/-- A reading stays when text is appended. -/
theorem read_append {input : List Char} {spread : CssSpread} (read : read? input = some spread)
    (more : List Char) : read? (input ++ more) = some spread := by
  obtain ⟨⟨behind, rfl⟩, facts⟩ := read_eq_some_iff.mp read
  exact read_eq_some_iff.mpr ⟨⟨behind ++ more, List.append_assoc ..⟩, facts⟩

/-- A reading that lies within a text does not need what follows. -/
theorem read_of_within {input more : List Char} {spread : CssSpread}
    (read : read? (input ++ more) = some spread) (within : spread.text.length ≤ input.length) :
    read? input = some spread := by
  obtain ⟨⟨behind, joined⟩, facts⟩ := read_eq_some_iff.mp read
  have initial : spread.text <+: input :=
    List.prefix_of_prefix_length_le ⟨behind, joined.symm⟩ (List.prefix_append input more) within
  obtain ⟨rest, rfl⟩ := initial
  exact read_eq_some_iff.mpr ⟨⟨rest, rfl⟩, facts⟩

/-- Where a spread is read, one is opened. -/
theorem opens_of_read {input : List Char} {spread : CssSpread} (read : read? input = some spread) :
    Opens input := by
  obtain ⟨⟨behind, rfl⟩, blank, _⟩ := read_eq_some_iff.mp read
  exact ⟨spread.blanks, spread.body ++ '}' :: behind, by simp [text], blank⟩

/-- Nothing but a brace opens a spread. -/
theorem Opens.eq_cons {input : List Char} (opens : Opens input) : ∃ rest, input = '{' :: rest := by
  obtain ⟨blanks, inside, rfl, _⟩ := opens
  exact ⟨_, List.cons_append ..⟩

/-- Nothing stands in an opening but the brace, blanks and dots. -/
theorem not_mem_opening {blanks : List Char} (blank : ∀ c ∈ blanks, Text.isScriptBlank c = true)
    {c : Char} (other : c ≠ '{' ∧ c ≠ '.' ∧ Text.isScriptBlank c = false) :
    c ∉ '{' :: blanks ++ ['.', '.', '.'] := by
  intro member
  rcases List.mem_append.mp member with early | dot
  · rcases List.mem_cons.mp early with brace | inBlanks
    · exact other.1 brace
    · exact Bool.false_ne_true (other.2.2.symm.trans (blank c inBlanks))
  · exact other.2.1 (by simpa using dot)

/-- A spread has no `}` but at its end. -/
theorem brace_not_mem {input : List Char} {spread : CssSpread} (read : read? input = some spread) :
    '}' ∉ '{' :: spread.blanks ++ '.' :: '.' :: '.' :: spread.body := by
  obtain ⟨_, blank, absent, _⟩ := read_eq_some_iff.mp read
  have spelled : '{' :: spread.blanks ++ '.' :: '.' :: '.' :: spread.body =
      ('{' :: spread.blanks ++ ['.', '.', '.']) ++ spread.body := by
    simp
  rw [spelled, List.mem_append, not_or]
  exact ⟨not_mem_opening blank (by decide), absent⟩

/-- A reading ends with the first `}` of what it is read from. -/
theorem within_of_mem {input more : List Char} {spread : CssSpread}
    (read : read? (input ++ more) = some spread) (closed : '}' ∈ input) :
    spread.text.length ≤ input.length := by
  rcases Nat.lt_or_ge input.length spread.text.length with longer | within
  · obtain ⟨behind, joined⟩ := eq_text_append_of_read read
    have initial : input <+: spread.text :=
      List.prefix_of_prefix_length_le (List.prefix_append input more) ⟨behind, joined.symm⟩
        (Nat.le_of_lt longer)
    have spelled : spread.text =
        ('{' :: spread.blanks ++ '.' :: '.' :: '.' :: spread.body) ++ ['}'] := by
      simp [text]
    rw [spelled] at initial
    have shorter : input <+: '{' :: spread.blanks ++ '.' :: '.' :: '.' :: spread.body := by
      rcases List.prefix_concat_iff.mp initial with same | early
      · rw [same, ← spelled] at longer
        omega
      · exact early
    exact absurd (shorter.subset closed) (brace_not_mem read)
  · exact within

/-- So it does not need what stands behind a `}`. -/
theorem read_of_mem {input more : List Char} {spread : CssSpread}
    (read : read? (input ++ more) = some spread) (closed : '}' ∈ input) : read? input = some spread :=
  read_of_within read (within_of_mem read closed)

/-- An opening that a text ending with `>` cuts off is whole, for `>` opens nothing. -/
theorem opens_of_append {input more : List Char} (ends : input.getLast? = some '>')
    (opens : Opens (input ++ more)) : Opens input := by
  obtain ⟨blanks, inside, joined, blank⟩ := opens
  have spelled : '{' :: blanks ++ '.' :: '.' :: '.' :: inside =
      ('{' :: blanks ++ ['.', '.', '.']) ++ inside := by
    simp
  rw [spelled] at joined
  rcases List.append_eq_append_iff.mp joined with ⟨left, whole, _⟩ | ⟨left, whole, _⟩
  · refine absurd ?_ (@not_mem_opening _ blank '>' (by decide))
    rw [whole]
    exact List.mem_append_left _ (List.mem_of_getLast? ends)
  · exact ⟨blanks, left, by rw [whole]; simp, blank⟩

end CssSpread

/-- There is a last spread if any begins before the first `>` and has a `>` behind it. -/
theorem lastSpread_isSome {before inside : List Char} {spread : CssSpread} (free : '>' ∉ before)
    (read : CssSpread.read? inside = some spread)
    (ended : '>' ∈ inside.drop spread.text.length) :
    (lastSpread? (before ++ inside)).isSome = true := by
  induction before with
  | nil =>
    obtain ⟨rest, rfl⟩ := (CssSpread.opens_of_read read).eq_cons
    rw [List.nil_append, lastSpread?, if_neg (by decide)]
    cases deeper : lastSpread? rest with
    | some found => rfl
    | none =>
      cases cut : Text.cutAt? '>' (('{' :: rest).drop spread.text.length) with
      | none => exact absurd ended ((Text.cutAt?_eq_none_iff ..).mp cut)
      | some parts => simp [read, cut]
  | cons c others inductionHypothesis =>
    rw [List.mem_cons, not_or] at free
    have notAngle : c ≠ '>' := fun same => free.1 same.symm
    have deeper := inductionHypothesis free.2
    rw [List.cons_append, lastSpread?, if_neg notAngle]
    cases found : lastSpread? (others ++ inside) with
    | none => simp [found] at deeper
    | some parts => rfl

/-- A last spread does not vanish when text is appended, though another may take its place. -/
theorem lastSpread_isSome_append {text : List Char} (found : (lastSpread? text).isSome = true)
    (more : List Char) : (lastSpread? (text ++ more)).isSome = true := by
  obtain ⟨⟨before, spread, after⟩, found⟩ := Option.isSome_iff_exists.mp found
  obtain ⟨behind, rfl, freeBefore, freeAfter, read⟩ := lastSpread_spec found
  rw [List.append_assoc]
  refine lastSpread_isSome freeBefore (CssSpread.read_append read more) ?_
  rw [List.append_assoc, List.drop_left]
  simp

/-- There is none in a text if there is none with more behind it. -/
theorem lastSpread_eq_none_of_append {text more : List Char}
    (none : lastSpread? (text ++ more) = Option.none) : lastSpread? text = Option.none := by
  cases found : lastSpread? text with
  | none => rfl
  | some parts =>
    have present : (lastSpread? text).isSome = true := by rw [found]; rfl
    have longer := lastSpread_isSome_append present more
    simp [none] at longer

/-- A mark that is found within a text does not need what follows. -/
theorem Text.cutAt?_of_within {stop : Char} {text more before after : List Char}
    (cut : cutAt? stop (text ++ more) = some (before, after)) (within : before.length < text.length) :
    ∃ behind, cutAt? stop text = some (before, behind) := by
  obtain ⟨joined, free⟩ := (cutAt?_eq_some_iff ..).mp cut
  obtain ⟨behind, rfl⟩ : before ++ [stop] <+: text := by
    refine List.prefix_of_prefix_length_le ⟨after, ?_⟩ (List.prefix_append text more)
      (by rw [List.length_append]; exact within)
    rw [joined, List.append_assoc]
    rfl
  exact ⟨behind, (cutAt?_eq_some_iff ..).mpr ⟨by rw [List.append_assoc]; rfl, free⟩⟩

/-- A last spread whose tag ends within a text does not need what follows. -/
theorem lastSpread_of_within {text more before after : List Char} {spread : CssSpread}
    (found : lastSpread? (text ++ more) = some (before, spread, after))
    (within : (before ++ spread.text ++ after).length < text.length) :
    lastSpread? text = some (before, spread, after) := by
  induction text generalizing before with
  | nil => simp at within
  | cons c rest inductionHypothesis =>
    rw [List.cons_append, lastSpread?] at found
    rw [lastSpread?]
    split at found
    · simp at found
    · rename_i notAngle
      rw [if_neg notAngle]
      cases deeper : lastSpread? (rest ++ more) with
      | some parts =>
        obtain ⟨inner, later, lastAfter⟩ := parts
        rw [deeper] at found
        obtain ⟨rfl, same⟩ := Prod.mk.inj (Option.some.inj found)
        obtain ⟨rfl, rfl⟩ := Prod.mk.inj same
        rw [inductionHypothesis deeper (by simpa using within)]
      | none =>
        have alone := lastSpread_eq_none_of_append deeper
        rw [deeper] at found
        cases read : CssSpread.read? (c :: (rest ++ more)) with
        | none => simp [read] at found
        | some here =>
          simp only [read] at found
          obtain ⟨⟨between, behind⟩, cut, same⟩ := Option.map_eq_some_iff.mp found
          obtain ⟨rfl, others⟩ := Prod.mk.inj same
          obtain ⟨rfl, rfl⟩ := Prod.mk.inj others
          simp only [List.nil_append, List.length_append] at within
          have readHere : CssSpread.read? (c :: rest) = some here :=
            @CssSpread.read_of_within (c :: rest) more here read (by omega)
          obtain ⟨left, spelled⟩ := CssSpread.eq_text_append_of_read readHere
          rw [← List.cons_append, spelled, List.append_assoc, List.drop_left] at cut
          obtain ⟨_, cutHere⟩ := Text.cutAt?_of_within cut (by
            rw [spelled, List.length_append] at within
            omega)
          simp only [alone, readHere]
          rw [spelled, List.drop_left, cutHere]
          rfl

namespace ForwardingTag

variable {kind : TagKind}

/-- What a reading says: where the tag starts, where its last spread stands, and where it ends. -/
theorem read_spec {input : List Char} {tag : ForwardingTag} (read : read? kind input = some tag) :
    kind.isInitial tag.initial = true ∧ '>' ∉ tag.before ∧ '>' ∉ tag.after ∧
      ∃ behind, input = '<' :: tag.initial :: tag.before ++
          (tag.spread.text ++ (tag.after ++ '>' :: behind)) ∧
        CssSpread.read? (tag.spread.text ++ (tag.after ++ '>' :: behind)) = some tag.spread := by
  unfold read? at read
  split at read
  · rename_i initial rest
    split at read
    · rename_i known
      obtain ⟨⟨before, spread, after⟩, found, rfl⟩ := Option.map_eq_some_iff.mp read
      obtain ⟨behind, rfl, freeBefore, freeAfter, reading⟩ := lastSpread_spec found
      exact ⟨known, freeBefore, freeAfter, behind, rfl, reading⟩
    · simp at read
  · simp at read

/-- A flat tag stands at the head of what it is read from. -/
theorem eq_text_append_of_read {input : List Char} {tag : ForwardingTag}
    (read : read? kind input = some tag) : ∃ behind, input = tag.text ++ behind :=
  (text_of_read read).2.imp fun _ joined => joined.symm

/-- There is no `>` before the spread of a flat tag. -/
theorem angle_not_mem_front {input : List Char} {tag : ForwardingTag}
    (read : read? kind input = some tag) : '>' ∉ '<' :: tag.initial :: tag.before := by
  obtain ⟨known, free, _⟩ := read_spec read
  rw [List.mem_cons, List.mem_cons, not_or, not_or]
  refine ⟨by decide, ?_, free⟩
  intro same
  rw [← same] at known
  cases kind <;> exact absurd known (by decide)

/-- A flat tag ends with `>`. -/
theorem text_getLast (tag : ForwardingTag) : tag.text.getLast? = some '>' := by
  rw [text, List.getLast?_append]
  rfl

/-- A flat tag is read where a tag starts, a spread begins before the first `>`, and a `>`
stands behind that spread. -/
theorem read_isSome {before inside : List Char} {spread : CssSpread}
    (starts : kind.starts (before ++ inside) = true) (free : '>' ∉ before)
    (read : CssSpread.read? inside = some spread)
    (ended : '>' ∈ inside.drop spread.text.length) :
    (read? kind (before ++ inside)).isSome = true := by
  obtain ⟨c, rest, spelled, initial⟩ := TagKind.starts_iff.mp starts
  obtain ⟨others, rfl⟩ := (CssSpread.opens_of_read read).eq_cons
  have notBrace : c ≠ '{' := by
    rintro rfl
    cases kind <;> exact absurd initial (by decide)
  obtain ⟨inner, rfl⟩ : ∃ inner, before = '<' :: c :: inner := by
    rcases before with _ | ⟨first, _ | ⟨second, inner⟩⟩
    · exact absurd (List.cons.inj spelled).1 (by decide)
    · exact absurd (List.cons.inj (List.cons.inj spelled).2).1.symm notBrace
    · obtain ⟨rfl, later⟩ := List.cons.inj spelled
      obtain ⟨rfl, _⟩ := List.cons.inj later
      exact ⟨inner, rfl⟩
  have freeInner : '>' ∉ inner :=
    fun member => free (List.mem_cons_of_mem _ (List.mem_cons_of_mem _ member))
  have found := lastSpread_isSome freeInner read ended
  simpa [read?, initial] using found

/-- A flat tag does not vanish when text is appended, though it may become longer. -/
theorem read_isSome_append {text : List Char} (found : (read? kind text).isSome = true)
    (more : List Char) : (read? kind (text ++ more)).isSome = true := by
  obtain ⟨tag, read⟩ := Option.isSome_iff_exists.mp found
  obtain ⟨known, _, _, behind, rfl, reading⟩ := read_spec read
  rw [List.append_assoc]
  refine read_isSome ?_ (angle_not_mem_front read) (CssSpread.read_append reading more) ?_
  · simpa using known
  · rw [List.append_assoc, List.drop_left]
    simp

/-- A flat tag that lies within a text does not need what follows. -/
theorem read_of_within {text more : List Char} {tag : ForwardingTag}
    (read : read? kind (text ++ more) = some tag) (within : tag.text.length ≤ text.length) :
    read? kind text = some tag := by
  rcases text with _ | ⟨first, _ | ⟨second, rest⟩⟩
  · simp [ForwardingTag.text] at within
  · simp [ForwardingTag.text] at within
  · obtain ⟨initial, before, spread, after⟩ := tag
    obtain ⟨known, _⟩ := read_spec read
    obtain ⟨behind, joined⟩ := (text_of_read read).2
    obtain ⟨rfl, later⟩ := List.cons.inj joined
    obtain ⟨rfl, _⟩ := List.cons.inj later
    rw [List.cons_append, List.cons_append, read?, if_pos known] at read
    obtain ⟨⟨inner, last, between⟩, found, same⟩ := Option.map_eq_some_iff.mp read
    obtain ⟨_, rfl, rfl, rfl⟩ := ForwardingTag.mk.inj same
    have shorter : (inner ++ last.text ++ between).length < rest.length := by
      simp only [ForwardingTag.text, List.length_append, List.length_cons, List.length_nil]
        at within ⊢
      omega
    rw [read?, if_pos known, lastSpread_of_within found shorter]
    rfl

/-- If every flat tag that begins in a text ends in it, the text is apart from what follows. -/
theorem apart_of_within {text behind : List Char} (within : (pattern kind).Within text behind) :
    (pattern kind).Apart text behind := by
  intro inside final present
  show read? kind (inside ++ behind) = read? kind inside
  cases read : read? kind (inside ++ behind) with
  | none =>
    cases alone : read? kind inside with
    | none => rfl
    | some tag =>
      have present : (read? kind inside).isSome = true := by rw [alone]; rfl
      have longer := read_isSome_append present behind
      simp [read] at longer
  | some tag => exact (read_of_within read (within inside tag final present read)).symm

/-- If the spreads that begin in a text end in it, so do the flat tags. -/
theorem within_of_apart {text behind : List Char} (ends : text.getLast? = some '>')
    (apart : CssSpread.pattern.Apart text behind) : (pattern kind).Within text behind := by
  intro inside tag final present read
  have insideEnds : inside.getLast? = some '>' := by
    rw [← Text.getLast?_of_suffix final present]
    exact ends
  obtain ⟨_, _, freeAfter, later, joined, reading⟩ := read_spec read
  show tag.text.length ≤ inside.length
  -- The `>` at the end of the text stands behind the front of the tag, so the spread begins in it.
  obtain ⟨left, whole, rest, leftEnds⟩ :=
    Text.exists_beyond joined.symm insideEnds (angle_not_mem_front read)
  have presentLeft : left ≠ [] := by
    rintro rfl
    exact absurd leftEnds (by decide)
  have finalLeft : left <:+ text := (whole ▸ List.suffix_append _ _ : left <:+ inside).trans final
  rw [rest] at reading
  have readLeft : CssSpread.read? left = some tag.spread :=
    (apart left finalLeft presentLeft).symm.trans reading
  -- It also ends in it, and with `}`, so the `>` stands behind the spread.
  obtain ⟨remaining, spelled⟩ := CssSpread.eq_text_append_of_read readLeft
  have presentRemaining : remaining ≠ [] := by
    rintro rfl
    rw [spelled, List.append_nil, CssSpread.text, List.getLast?_append] at leftEnds
    exact absurd (show some '}' = some '>' from leftEnds) (by decide)
  have remainingEnds : remaining.getLast? = some '>' := by
    rw [← leftEnds, spelled]
    exact (Text.getLast?_of_suffix (List.suffix_append _ _) presentRemaining).symm
  rw [spelled, List.append_assoc] at rest
  obtain ⟨more, same, _, moreEnds⟩ :=
    Text.exists_beyond (List.append_cancel_left rest) remainingEnds freeAfter
  have longer : 0 < more.length := by
    cases more with
    | nil => exact absurd moreEnds (by decide)
    | cons next others => exact Nat.succ_pos _
  rw [whole, spelled, same]
  simp only [ForwardingTag.text, List.length_append, List.length_cons, List.length_nil]
  omega

/-- Nothing is read at a text in which no spread is. -/
theorem read_eq_none {text : List Char} (silent : CssSpread.pattern.Silent text []) :
    read? kind text = none := by
  cases read : read? kind text with
  | none => rfl
  | some tag =>
    obtain ⟨_, _, _, behind, rfl, reading⟩ := read_spec read
    have unread := silent.read_none (List.suffix_append _ _)
    exact nomatch unread.symm.trans reading

/-- A flat tag in a text whose one `>` stands at its end takes all of it. -/
theorem text_eq_of_read {front : List Char} {tag : ForwardingTag} (free : '>' ∉ front)
    (read : read? kind (front ++ ['>']) = some tag) : tag.text = front ++ ['>'] := by
  have initial := (text_of_read read).2
  rcases List.prefix_concat_iff.mp initial with same | shorter
  · exact same
  · exact absurd (shorter.subset (List.mem_of_getLast? tag.text_getLast)) free

end ForwardingTag

section

variable {kind : TagKind} {text behind : List Char} {hit : ForwardingTag}

/-- A pass keeps a text in which it reads nothing. -/
theorem forwardScope_of_unread (unread : (ForwardingTag.pattern kind).Silent text []) :
    forwardScope kind text = ⟨text, 0⟩ :=
  (ForwardingTag.pattern kind).edit_of_silent _ text unread

/-- It goes on behind such a text. -/
theorem forwardScope_append_of_unread (unread : (ForwardingTag.pattern kind).Silent text behind) :
    forwardScope kind (text ++ behind) =
      ⟨text ++ (forwardScope kind behind).text, (forwardScope kind behind).places⟩ :=
  (ForwardingTag.pattern kind).edit_append_of_silent _ text behind unread

/-- A pass rewrites the flat tag that it reads, counts it, and goes on behind it. -/
theorem forwardScope_append_of_read (read : (ForwardingTag.pattern kind).read?
      ((ForwardingTag.pattern kind).text hit ++ behind) = some hit) :
    forwardScope kind ((ForwardingTag.pattern kind).text hit ++ behind) =
      ⟨hit.merged kind ++ (forwardScope kind behind).text,
        1 + (forwardScope kind behind).places⟩ :=
  (ForwardingTag.pattern kind).edit_append_of_read _ hit behind read

/-- A pass leaves a text without flat spreads as it is. -/
theorem forwardScope_of_silent (kind : TagKind) {text : List Char}
    (silent : CssSpread.pattern.Silent text []) : forwardScope kind text = ⟨text, 0⟩ := by
  apply forwardScope_of_unread
  intro inside final _
  rw [List.append_nil]
  exact ForwardingTag.read_eq_none (silent.of_suffix final)

/-- A pass keeps a text that starts no tag behind its head, if it reads none at the head. -/
theorem forwardScope_of_read_none (single : Text.holdsTagStart (text.drop 1) = false)
    (unread : ForwardingTag.read? kind text = none) : forwardScope kind text = ⟨text, 0⟩ := by
  apply forwardScope_of_unread
  intro inside final present
  rw [List.append_nil]
  cases text with
  | nil => exact absurd (List.suffix_nil.mp final) present
  | cons c rest =>
    rcases List.suffix_cons_iff.mp final with rfl | within
    · exact unread
    · have silent : (ForwardingTag.pattern kind).Silent rest [] :=
        (ForwardingTag.pattern_startsTags kind).silent single rfl
      exact silent.read_none within

/-- A flat tag that it reads at the head of such a text is all that it rewrites. -/
theorem forwardScope_of_read (single : Text.holdsTagStart (text.drop 1) = false)
    (read : ForwardingTag.read? kind text = some hit) (joined : text = hit.text ++ behind) :
    forwardScope kind text = ⟨hit.merged kind ++ behind, 1⟩ := by
  subst joined
  have final : behind <:+ (hit.text ++ behind).drop 1 := by
    rw [ForwardingTag.text]
    exact List.suffix_append _ behind
  have silent : (ForwardingTag.pattern kind).Silent behind [] :=
    (ForwardingTag.pattern_startsTags kind).silent (Text.holdsTagStart_of_suffix final single) rfl
  have edited := @forwardScope_append_of_read kind behind hit read
  rw [forwardScope_of_unread silent] at edited
  exact edited

end

end ScopedMarkup
