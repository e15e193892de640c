import ScopedMarkup.Diagnostic.Fault
import ScopedMarkup.Proofs.Removals
import ScopedMarkup.Proofs.ShapeFlags
import ScopedMarkup.Tag.Span

/-!
# Tags without faults

Diagnostics look for flat spreads by byte offsets: each hit in a tag must lie within a spread
that mentions `cssTarget`, and such a spread may nest no braces but those of the shorthand
object. Together this says where flat spreads are read in a tag without faults: at the heads
of pieces that forward the scope, and nowhere else. Not only the leftmost hits are meant, for
a later one within a hit would open a brace within the spread.
-/

namespace ScopedMarkup

namespace Text

/-- Only the empty text has no bytes. -/
theorem byteLength_pos {text : List Char} (present : text ≠ []) : 0 < byteLength text := by
  obtain ⟨c, rest, rfl⟩ := List.exists_cons_of_ne_nil present
  have := c.utf8Size_pos
  rw [byteLength_cons]
  omega

/-- Of two initial parts the one with fewer bytes is an initial part of the other. -/
theorem prefix_of_byteLength_le {first second text : List Char} (initial : first <+: text)
    (other : second <+: text) (fewer : byteLength first ≤ byteLength second) : first <+: second := by
  rcases List.prefix_or_prefix_of_prefix initial other with shorter | ⟨more, rfl⟩
  · exact shorter
  · cases more with
    | nil => simp
    | cons c rest =>
      have positive := byteLength_pos (List.cons_ne_nil c rest)
      rw [byteLength_append] at fewer
      omega

/-- Initial parts with as many bytes are the same. -/
theorem eq_of_byteLength_eq {first second text : List Char} (initial : first <+: text)
    (other : second <+: text) (same : byteLength first = byteLength second) : first = second :=
  (prefix_of_byteLength_le initial other (Nat.le_of_eq same)).eq_of_length_le
    (prefix_of_byteLength_le other initial (Nat.le_of_eq same.symm)).length_le

/-- Of two initial parts the one with fewer bytes has fewer characters. -/
theorem length_lt_of_byteLength_lt {first second text : List Char} (initial : first <+: text)
    (other : second <+: text) (fewer : byteLength first < byteLength second) :
    first.length < second.length := by
  have shorter := prefix_of_byteLength_le initial other (Nat.le_of_lt fewer)
  refine Nat.lt_of_le_of_ne shorter.length_le fun same => ?_
  rw [shorter.eq_of_length same] at fewer
  exact Nat.lt_irrefl _ fewer

/-- Two characters of a text of which neither stands before the other are the same. -/
theorem eq_of_first {before before' rest rest' : List Char} {c d : Char}
    (joined : before ++ c :: rest = before' ++ d :: rest') (absent : d ∉ before)
    (absent' : c ∉ before') : c = d := by
  rcases List.append_eq_append_iff.mp joined with ⟨left, early, later⟩ | ⟨left, early, later⟩
  · cases left with
    | nil => exact (List.cons.inj later).1
    | cons first others =>
      rw [early, (List.cons.inj later).1] at absent'
      simp at absent'
  · cases left with
    | nil => exact (List.cons.inj later).1.symm
    | cons first others =>
      rw [early, (List.cons.inj later).1] at absent
      simp at absent

/-- A character that stands no later than a different one stands before it. -/
theorem exists_between {before others front behind : List Char} {c d : Char}
    (joined : before ++ c :: others = front ++ d :: behind) (different : c ≠ d)
    (early : before.length ≤ front.length) :
    ∃ inner, front = before ++ c :: inner ∧ others = inner ++ d :: behind := by
  obtain ⟨left, rfl⟩ := List.prefix_of_prefix_length_le ⟨_, joined⟩ (List.prefix_append front _) early
  rw [List.append_assoc] at joined
  have later := List.append_cancel_left joined
  cases left with
  | nil => exact absurd (List.cons.inj later).1 different
  | cons next inner =>
    obtain ⟨rfl, rest⟩ := List.cons.inj later
    exact ⟨inner, rfl, rest⟩

end Text

namespace Pattern

universe u
variable {α : Type u}

/-- Without a hit the places are told from behind the first character. -/
theorem locate_of_read_none (pattern : Pattern α) (position : Position) (c : Char)
    (rest : List Char) (unread : pattern.read? (c :: rest) = none) :
    pattern.locate position (c :: rest) = pattern.locate (position.step c) rest := by
  rw [locate, pattern.split_of_read_none c rest unread, locate]
  obtain ⟨hits, tail⟩ := pattern.split rest
  cases hits <;> rfl

/-- A hit at the head is the first place, and the others are told from behind it. -/
theorem locate_append (pattern : Pattern α) (position : Position) (hit : α) (rest : List Char)
    (read : pattern.read? (pattern.text hit ++ rest) = some hit) :
    pattern.locate position (pattern.text hit ++ rest) =
      ⟨position, hit⟩ :: pattern.locate (position.after (pattern.text hit)) rest := by
  rw [locate, pattern.split_append hit rest read]
  rfl

/-- Whether a hit covers a place of a text: it begins there or before, and ends behind. -/
def Covers (pattern : Pattern α) (position : Position) (text : List Char) (size : Nat)
    (found : Located α) : Prop :=
  ∃ front behind, text = front ++ (pattern.text found.value ++ behind) ∧
    pattern.read? (pattern.text found.value ++ behind) = some found.value ∧
    found.position = position.after front ∧ front.length ≤ size ∧
    size < front.length + (pattern.text found.value).length

/-- A hit behind a text covers a place that is as far behind it. -/
theorem Covers.append {pattern : Pattern α} {position : Position} {shown text : List Char}
    {size : Nat} {found : Located α} (covers : pattern.Covers (position.after shown) text size found) :
    pattern.Covers position (shown ++ text) (shown.length + size) found := by
  obtain ⟨front, behind, spelled, reading, placed, early, late⟩ := covers
  refine ⟨shown ++ front, behind, ?_, reading, ?_, ?_, ?_⟩
  · rw [spelled, List.append_assoc]
  · rw [placed, Position.after_append]
  · rw [List.length_append]
    omega
  · rw [List.length_append]
    omega

/-- Wherever something is read, a hit covers the place. -/
theorem exists_covering (pattern : Pattern α) (position : Position) (before : List Char)
    {inside : List Char} {hit : α} (read : pattern.read? inside = some hit) :
    ∃ found ∈ pattern.locate position (before ++ inside),
      pattern.Covers position (before ++ inside) before.length found := by
  induction bound : before.length using Nat.strongRecOn generalizing before position with
  | ind size inductionHypothesis =>
    cases first : pattern.read? (before ++ inside) with
    | none =>
      cases before with
      | nil => simp [read] at first
      | cons c rest =>
        obtain ⟨found, member, covers⟩ := inductionHypothesis rest.length
          (by rw [← bound]; exact Nat.lt_succ_self _) (position.after [c]) rest rfl
        refine ⟨found, ?_, ?_⟩
        · rw [List.cons_append] at first ⊢
          rw [pattern.locate_of_read_none position c _ first]
          exact member
        · have further := covers.append
          rw [List.length_singleton, Nat.add_comm] at further
          rw [← bound]
          exact further
    | some here =>
      obtain ⟨present, behind, joined⟩ := pattern.text_of_read first
      have covered : 0 < (pattern.text here).length := List.length_pos_iff.mpr present
      rw [← joined] at first
      have places := pattern.locate_append position here behind first
      rw [← joined, places]
      rcases Nat.lt_or_ge before.length (pattern.text here).length with within | beyond
      · exact ⟨⟨position, here⟩, List.mem_cons_self, [], behind, rfl, first, rfl, Nat.zero_le _,
          by simpa [bound] using within⟩
      · have initial : pattern.text here <+: before :=
          List.prefix_of_prefix_length_le ⟨behind, joined⟩ (List.prefix_append _ _) beyond
        obtain ⟨rest, rfl⟩ := initial
        rw [List.append_assoc] at joined
        have same : behind = rest ++ inside := List.append_cancel_left joined
        rw [List.length_append] at bound
        obtain ⟨found, member, covers⟩ := inductionHypothesis rest.length (by omega)
          (position.after (pattern.text here)) rest rfl
        rw [same, ← bound]
        exact ⟨found, List.mem_cons_of_mem _ member, covers.append⟩

end Pattern

namespace Piece

/-- A piece that is a spread is written as the spread is. -/
theorem text_of_spread {piece : Piece} {spread : Spread} (same : piece.spread? = some spread) :
    piece.text = spread.text ∧ Text.trimStart spread.inner = '.' :: '.' :: '.' :: spread.expression := by
  cases piece with
  | plain c => simp [spread?] at same
  | quoted quote body closed => simp [spread?] at same
  | group inner =>
    rw [spread?, Spread.ofInner?] at same
    split at same
    · rename_i expression dotted
      rw [← Option.some.inj same]
      exact ⟨rfl, dotted⟩
    · simp at same

/-- A piece that is a spread ends with `}`. -/
theorem text_getLast_of_spread {piece : Piece} {spread : Spread}
    (same : piece.spread? = some spread) : piece.text.getLast? = some '}' := by
  rw [(text_of_spread same).1, Spread.text, List.getLast?_append]
  rfl

/-- A spread at which a flat spread is read is one by itself, whatever stands behind it. -/
theorem isFlat_of_read {piece : Piece} {spread : Spread} (same : piece.spread? = some spread)
    {behind : List Char} {found : CssSpread}
    (read : CssSpread.read? (piece.text ++ behind) = some found) : piece.isFlat = true := by
  have closed := List.mem_of_getLast? (text_getLast_of_spread same)
  rw [isFlat, CssSpread.read_of_mem read closed]
  rfl

/-- Whether a piece is a spread that mentions `cssTarget`. -/
def forwards (piece : Piece) : Bool := piece.spread?.any Spread.mentionsTarget

theorem forwards_iff {piece : Piece} : piece.forwards = true ↔
    ∃ spread, piece.spread? = some spread ∧ spread.mentionsTarget = true := by
  rw [forwards, Option.any_eq_true_iff_get]
  constructor
  · rintro ⟨present, mentions⟩
    exact ⟨_, (Option.some_get present).symm, mentions⟩
  · rintro ⟨spread, same, mentions⟩
    exact ⟨by simp [same], by simpa [same] using mentions⟩

theorem text_ne_nil (piece : Piece) : piece.text ≠ [] := by
  cases piece <;> simp [text]

end Piece

namespace Spread

/-- A brace between the braces of a spread stands in its expression. -/
theorem brace_in_expression {inner expression before inside : List Char}
    (dotted : Text.trimStart inner = '.' :: '.' :: '.' :: expression)
    (spelled : inner = before ++ '{' :: inside) : ∃ between, expression = between ++ '{' :: inside := by
  have whole : (inner.takeWhile Text.isUnicodeBlank ++ ['.', '.', '.']) ++ expression =
      before ++ '{' :: inside := by
    rw [← spelled, List.append_assoc]
    show _ ++ '.' :: '.' :: '.' :: expression = inner
    rw [← dotted]
    exact List.takeWhile_append_dropWhile
  have absent : '{' ∉ inner.takeWhile Text.isUnicodeBlank ++ ['.', '.', '.'] := by
    intro member
    rcases List.mem_append.mp member with blank | dot
    · exact absurd (List.mem_takeWhile_imp blank) (by decide)
    · exact absurd dot (by decide)
  rcases List.append_eq_append_iff.mp whole with ⟨left, _, rest⟩ | ⟨left, early, rest⟩
  · exact ⟨left, rest⟩
  · cases left with
    | nil => exact ⟨[], rest.symm⟩
    | cons first others =>
      rw [← (List.cons.inj rest).1] at early
      exact absurd (early ▸ by simp) absent

/-- Behind the brace of the shorthand object stands `cssTarget`, blanks aside. -/
theorem filter_of_shorthand {spread : Spread} {between inside : List Char}
    (shorthand : spread.isShorthand = true) (spelled : spread.expression = between ++ '{' :: inside) :
    inside.filter (fun c => !Text.isUnicodeBlank c) = 'c' :: "ssTarget\x7d".toList := by
  rw [isShorthand, beq_iff_eq, spelled, List.filter_append, List.filter_cons] at shorthand
  have braceKept : (!Text.isUnicodeBlank '{') = true := by decide
  rw [if_pos braceKept] at shorthand
  -- The object has one brace, so the expression has nothing before it.
  cases early : between.filter (fun c => !Text.isUnicodeBlank c) with
  | nil =>
    rw [early] at shorthand
    exact (List.cons.inj shorthand).2
  | cons first others =>
    rw [early] at shorthand
    have later : others ++ '{' :: inside.filter (fun c => !Text.isUnicodeBlank c) =
        "cssTarget\x7d".toList := (List.cons.inj shorthand).2
    have brace : '{' ∈ "cssTarget\x7d".toList := by
      rw [← later]
      simp
    exact absurd brace (by decide)

/-- The brace of the shorthand object opens no spread, for `cssTarget` stands behind it. -/
theorem not_opens_of_shorthand {spread : Spread} {before inside behind : List Char}
    (dotted : Text.trimStart spread.inner = '.' :: '.' :: '.' :: spread.expression)
    (shorthand : spread.isShorthand = true) (spelled : spread.inner = before ++ '{' :: inside) :
    ¬CssSpread.Opens ('{' :: (inside ++ behind)) := by
  rintro ⟨blanks, more, joined, blank⟩
  obtain ⟨between, spelledOut⟩ := brace_in_expression dotted spelled
  obtain ⟨blank', rest, rfl, allBlank, _, _⟩ :=
    List.filter_eq_cons_iff.mp (filter_of_shorthand shorthand spelledOut)
  have same : blank' ++ 'c' :: (rest ++ behind) = blanks ++ '.' :: '.' :: '.' :: more := by
    have inner := (List.cons.inj joined).2
    rwa [List.append_assoc, List.cons_append] at inner
  have first : 'c' = '.' :=
    Text.eq_of_first same (fun member => absurd (allBlank '.' member) (by decide))
      (fun member => absurd (blank 'c' member) (by decide))
  exact absurd first (by decide)

end Spread

namespace Piece

/-- Whether a spread may stand in a tag without faults: it nests no braces, or it is the
shorthand object. -/
def Tame (piece : Piece) : Prop :=
  ∀ spread, piece.spread? = some spread →
    (spread.mentionsTarget && spread.nestsBraces && !spread.isShorthand) = false

/-- A tame piece that forwards opens a spread at its head only. -/
theorem Tame.before_eq_nil {piece : Piece} (tame : piece.Tame) (forwards : piece.forwards = true)
    {before inside behind : List Char} (joined : before ++ inside = piece.text ++ behind)
    (shorter : before.length < piece.text.length) (opens : CssSpread.Opens inside) :
    before = [] := by
  obtain ⟨spread, same, mentions⟩ := forwards_iff.mp forwards
  obtain ⟨written, dotted⟩ := text_of_spread same
  obtain ⟨others, rfl⟩ := opens.eq_cons
  have spelled : piece.text = ('{' :: spread.inner) ++ ['}'] := written
  cases before with
  | nil => rfl
  | cons first early =>
    exfalso
    rw [spelled] at joined shorter
    obtain ⟨_, joined⟩ := List.cons.inj joined
    have whole : early ++ '{' :: others = spread.inner ++ '}' :: behind := by
      rw [List.append_cons spread.inner]
      exact joined
    have notLater : early.length ≤ spread.inner.length := by
      simp only [List.length_append, List.length_cons, List.length_nil] at shorter
      omega
    -- The brace that opens stands before the one that closes the piece.
    obtain ⟨inner, spelledInner, behindBrace⟩ := Text.exists_between whole (by decide) notLater
    have nests : spread.nestsBraces = true := by
      rw [Spread.nestsBraces, spelledInner]
      simp
    have shorthand : spread.isShorthand = true := by
      simpa [mentions, nests] using tame spread same
    rw [behindBrace] at opens
    exact Spread.not_opens_of_shorthand dotted shorthand spelledInner opens

end Piece

namespace Tag

/-- A spread among pieces is a piece with so many bytes before it. -/
theorem piece_of_mem_offsetSpreads {start offset : Nat} {body : List Piece} {spread : Spread}
    (member : (offset, spread) ∈ offsetSpreads start body) :
    ∃ front piece back, body = front ++ piece :: back ∧ piece.spread? = some spread ∧
      offset = start + Text.byteLength (front.flatMap Piece.text) := by
  induction body generalizing start with
  | nil => simp [offsetSpreads] at member
  | cons piece rest inductionHypothesis =>
    have later : (offset, spread) ∈ offsetSpreads (start + Text.byteLength piece.text) rest →
        ∃ front other back, piece :: rest = front ++ other :: back ∧ other.spread? = some spread ∧
          offset = start + Text.byteLength (front.flatMap Piece.text) := by
      intro inRest
      obtain ⟨front, other, back, rfl, same, placed⟩ := inductionHypothesis inRest
      refine ⟨piece :: front, other, back, rfl, same, ?_⟩
      rw [placed, List.flatMap_cons, Text.byteLength_append, Nat.add_assoc]
    rw [offsetSpreads] at member
    cases here : piece.spread? with
    | none =>
      rw [here] at member
      exact later member
    | some first =>
      rw [here] at member
      rcases List.mem_cons.mp member with same | inRest
      · obtain ⟨rfl, rfl⟩ := Prod.mk.inj same
        exact ⟨[], piece, rest, rfl, here, rfl⟩
      · exact later inRest

/-- The text of a tag around one of its pieces. -/
theorem text_around {tag : Tag} {front back : List Piece} {piece : Piece}
    (cutAt : tag.body = front ++ piece :: back) :
    tag.text = (tag.head ++ front.flatMap Piece.text) ++
      (piece.text ++ (back.flatMap Piece.text ++ tag.ending.text)) := by
  rw [text, cutAt]
  simp

/-- The text of a tag around a place within one of its pieces. -/
theorem text_within {tag : Tag} {front back : List Piece} {piece : Piece} {inner inside : List Char}
    (cutAt : tag.body = front ++ piece :: back) (spelled : inner ++ inside = piece.text) :
    tag.text = (tag.head ++ front.flatMap Piece.text ++ inner) ++
      (inside ++ (back.flatMap Piece.text ++ tag.ending.text)) := by
  rw [text_around cutAt, ← spelled]
  simp

/-- No piece begins within the head. -/
theorem ne_head_append {tag : Tag} {before inside : List Char} (spelled : before ++ inside = tag.head)
    (present : inside ≠ []) (front : List Char) : before ≠ tag.head ++ front := by
  intro placed
  have lengths := congrArg List.length placed
  have positive := List.length_pos_iff.mpr present
  rw [← spelled] at lengths
  simp only [List.length_append] at lengths
  omega

/-- A piece that begins within another one is that one, and begins at its head. -/
theorem cut_unique {tag : Tag} {front front' back back' : List Piece} {piece piece' : Piece}
    {inner inside : List Char} (cutAt : tag.body = front ++ piece :: back)
    (cutAt' : tag.body = front' ++ piece' :: back') (spelled : inner ++ inside = piece.text)
    (present : inside ≠ []) (placed : tag.head ++ front.flatMap Piece.text ++ inner =
      tag.head ++ front'.flatMap Piece.text) : inner = [] ∧ piece = piece' := by
  have same := cutAt.symm.trans cutAt'
  have shorter : inner.length < piece.text.length := by
    have positive := List.length_pos_iff.mpr present
    rw [← spelled, List.length_append]
    omega
  rw [List.append_assoc] at placed
  replace placed := List.append_cancel_left placed
  rcases List.append_eq_append_iff.mp same with ⟨left, early, later⟩ | ⟨left, early, later⟩
  · cases left with
    | nil =>
      rw [List.append_nil] at early
      rw [early] at placed
      exact ⟨List.append_right_eq_self.mp placed, (List.cons.inj later).1⟩
    | cons other others =>
      obtain ⟨rfl, _⟩ := List.cons.inj later
      rw [early, List.flatMap_append, List.flatMap_cons] at placed
      have lengths := congrArg List.length (List.append_cancel_left placed)
      rw [List.length_append] at lengths
      omega
  · cases left with
    | nil =>
      rw [List.append_nil] at early
      rw [← early] at placed
      exact ⟨List.append_right_eq_self.mp placed, (List.cons.inj later).1.symm⟩
    | cons other others =>
      obtain ⟨rfl, _⟩ := List.cons.inj later
      rw [early, List.flatMap_append, List.flatMap_cons] at placed
      have lengths := congrArg List.length placed
      have positive := List.length_pos_iff.mpr (Piece.text_ne_nil piece')
      simp only [List.length_append] at lengths
      omega

/-- What diagnostics say of a tag without faults. -/
structure Accepted (tag : Tag) : Prop where
  /-- The tag does not bear its scope attribute. -/
  bare : tag.bearsAttribute = false
  /-- No flat spread is read in the name. -/
  head : CssSpread.pattern.Silent tag.head tag.rest
  /-- Within a piece a flat spread is read at most at its head, and the piece forwards then. -/
  pieces : ∀ front piece back, tag.body = front ++ piece :: back → ∀ inside, inside <:+ piece.text →
    inside ≠ [] →
    (CssSpread.read? (inside ++ (back.flatMap Piece.text ++ tag.ending.text))).isSome = true →
      inside = piece.text ∧ piece.forwards = true
  /-- A tag that forwards has one `>`. -/
  angles : tag.forwardsScope = true → '>' ∉ tag.head ++ tag.body.flatMap Piece.text

/-- A flat spread that does not stray begins at the head of a piece that forwards, and ends
within the piece. -/
theorem hit_at_piece {found : Located Tag} (unstrayed : strayTarget? found = none)
    (tame : ∀ piece ∈ found.value.body, piece.Tame) {hit : Located CssSpread}
    (member : hit ∈ CssSpread.pattern.locate found.position found.value.text)
    {before behind : List Char}
    (joined : found.value.text = before ++ (CssSpread.pattern.text hit.value ++ behind))
    (reading : CssSpread.pattern.read? (CssSpread.pattern.text hit.value ++ behind) = some hit.value)
    (placed : hit.position = found.position.after before) :
    ∃ front piece back, found.value.body = front ++ piece :: back ∧ piece.forwards = true ∧
      before = found.value.head ++ front.flatMap Piece.text ∧
        (CssSpread.pattern.text hit.value).length ≤ piece.text.length := by
  have covered : found.value.coversOffset found.position.offset hit.position.offset = true := by
    rw [strayTarget?, Option.map_eq_none_iff] at unstrayed
    simpa using List.find?_eq_none.mp unstrayed hit member
  rw [coversOffset, List.any_eq_true] at covered
  obtain ⟨⟨begin, covering⟩, inSpreads, bounds⟩ := covered
  simp only [Bool.and_eq_true, decide_eq_true_eq] at bounds
  obtain ⟨⟨mentions, begun⟩, unended⟩ := bounds
  obtain ⟨front, piece, back, cutAt, same, begin⟩ := piece_of_mem_offsetSpreads inSpreads
  have forwards : piece.forwards = true := Piece.forwards_iff.mpr ⟨covering, same, mentions⟩
  rw [← (Piece.text_of_spread same).1] at unended
  rw [text_around cutAt] at joined
  rw [placed, Position.offset_after] at begun unended
  -- The hit begins in the piece, hence at its head.
  have starts : found.value.head ++ front.flatMap Piece.text <+: before := by
    refine Text.prefix_of_byteLength_le (List.prefix_append _ _) ⟨_, joined.symm⟩ ?_
    rw [Text.byteLength_append]
    omega
  obtain ⟨left, rfl⟩ := starts
  rw [List.append_assoc _ left] at joined
  have behindHead := List.append_cancel_left joined
  have fewer : left.length < piece.text.length := by
    refine Text.length_lt_of_byteLength_lt ⟨_, behindHead.symm⟩ (List.prefix_append piece.text _) ?_
    rw [Text.byteLength_append, Text.byteLength_append] at unended
    omega
  have atHead : left = [] := (tame piece (by rw [cutAt]; simp)).before_eq_nil forwards
    behindHead.symm fewer (CssSpread.opens_of_read reading)
  subst atHead
  refine ⟨front, piece, back, cutAt, forwards, List.append_nil _, ?_⟩
  rw [← List.nil_append (CssSpread.pattern.text hit.value ++ behind), ← behindHead] at reading
  exact CssSpread.within_of_mem reading (List.mem_of_getLast? (Piece.text_getLast_of_spread same))

/-- A flat spread that is read in a tag stands at the head of a piece that forwards, if no
flat spread strays. -/
theorem read_at_piece {found : Located Tag} (unstrayed : strayTarget? found = none)
    (tame : ∀ piece ∈ found.value.body, piece.Tame) {before inside : List Char}
    (spelled : found.value.text = before ++ inside)
    (read : (CssSpread.read? inside).isSome = true) :
    ∃ front piece back, found.value.body = front ++ piece :: back ∧ piece.forwards = true ∧
      before = found.value.head ++ front.flatMap Piece.text := by
  obtain ⟨spread, read⟩ := Option.isSome_iff_exists.mp read
  obtain ⟨hit, member, early, behind, joined, reading, placed, notLater, notBeyond⟩ :=
    CssSpread.pattern.exists_covering found.position before read
  rw [← spelled] at member joined
  obtain ⟨front, piece, back, cutAt, forwards, rfl, within⟩ :=
    hit_at_piece unstrayed tame member joined reading placed
  -- Every place that the hit covers lies in the piece as well, hence at its head.
  rw [text_around cutAt] at spelled
  obtain ⟨more, rfl⟩ := List.prefix_of_prefix_length_le (List.prefix_append _ _)
    ⟨inside, spelled.symm⟩ notLater
  rw [List.append_assoc _ more] at spelled
  rw [List.length_append] at notBeyond
  have atHead : more = [] := (tame piece (by rw [cutAt]; simp)).before_eq_nil forwards
    (List.append_cancel_left spelled).symm (by omega) (CssSpread.opens_of_read read)
  subst atHead
  exact ⟨front, piece, back, cutAt, forwards, List.append_nil _⟩

/-- Spreads of pieces are spreads of the tag. -/
theorem mem_spreads {tag : Tag} {piece : Piece} (member : piece ∈ tag.body) {spread : Spread}
    (same : piece.spread? = some spread) : spread ∈ tag.spreads :=
  List.mem_filterMap.mpr ⟨piece, member, same⟩

/-- A tag forwards if one of its pieces does. -/
theorem forwardsScope_iff {tag : Tag} :
    tag.forwardsScope = true ↔ ∃ piece ∈ tag.body, piece.forwards = true := by
  rw [forwardsScope, List.any_eq_true]
  constructor
  · rintro ⟨spread, member, mentions⟩
    obtain ⟨piece, inBody, same⟩ := List.mem_filterMap.mp member
    exact ⟨piece, inBody, Piece.forwards_iff.mpr ⟨spread, same, mentions⟩⟩
  · rintro ⟨piece, member, forwards⟩
    obtain ⟨spread, same, mentions⟩ := Piece.forwards_iff.mp forwards
    exact ⟨spread, mem_spreads member same, mentions⟩

/-- The pieces of a tag are tame if no spread of it nests braces when it forwards. -/
theorem tame_of_nestedTarget {tag : Tag}
    (unnested : tag.forwardsScope = true → tag.nestedTarget? = Option.none) :
    ∀ piece ∈ tag.body, piece.Tame := by
  intro piece member spread same
  have inSpreads := mem_spreads member same
  by_cases mentions : spread.mentionsTarget = true
  · have forwards := forwardsScope_iff.mpr
      ⟨piece, member, Piece.forwards_iff.mpr ⟨spread, same, mentions⟩⟩
    simpa using List.find?_eq_none.mp (unnested forwards) spread inSpreads
  · simp [mentions]

/-- The rules that a tag without faults keeps. -/
theorem rules_of_faults {ids : InstanceIds} {found : Located Tag} (none : faults ids found = [])
    (unexempt : found.value.isExempt = false) :
    found.value.bearsAttribute = false ∧ found.value.lacksInstance ids = false ∧
      strayTarget? found = Option.none ∧
        (found.value.forwardsScope = true →
          found.value.nestedTarget? = Option.none ∧ found.value.anglePlace? = Option.none) := by
  rw [faults, if_neg (by simp [unexempt])] at none
  obtain ⟨common, forwarding⟩ := List.append_eq_nil_iff.mp none
  obtain ⟨both, stray⟩ := List.append_eq_nil_iff.mp common
  obtain ⟨bare, known⟩ := List.append_eq_nil_iff.mp both
  refine ⟨by simpa using bare, by simpa using known, by simpa using stray, ?_⟩
  intro forwards
  rw [if_pos forwards] at forwarding
  obtain ⟨shapes, _⟩ := List.append_eq_nil_iff.mp forwarding
  obtain ⟨nested, angle⟩ := List.append_eq_nil_iff.mp shapes
  exact ⟨by simpa using nested, by simpa using angle⟩

/-- No `>` stands in a settled tag before its end if none stands in its groups and values. -/
theorem Settled.angle_not_mem {tag : Tag} (settled : tag.Settled)
    (angle : tag.anglePlace? = Option.none) : '>' ∉ tag.head ++ tag.body.flatMap Piece.text := by
  intro member
  have held := (settled.stands []).hasAngle_iff.mpr member
  rw [← isSome_anglePlace?, angle] at held
  exact absurd held (by decide)

/-- A settled tag without faults reads as diagnostics want it to. -/
theorem accepted_of_faults {ids : InstanceIds} {found : Located Tag}
    (none : faults ids found = []) (unexempt : found.value.isExempt = false)
    (settled : found.value.Settled) : found.value.Accepted := by
  obtain ⟨bare, _, unstrayed, forwarding⟩ := rules_of_faults none unexempt
  have tame := tame_of_nestedTarget fun forwards => (forwarding forwards).1
  refine ⟨bare, ?_, ?_, fun forwards => settled.angle_not_mem (forwarding forwards).2⟩
  · intro inside final present
    cases read : CssSpread.pattern.read? (inside ++ found.value.rest) with
    | none => rfl
    | some spread =>
      obtain ⟨before, spelled⟩ := final
      have whole : found.value.text = before ++ (inside ++ found.value.rest) := by
        rw [text_eq_head_append, ← spelled, List.append_assoc]
      obtain ⟨_, _, _, _, _, placed⟩ := read_at_piece unstrayed tame whole
        (Option.isSome_iff_exists.mpr ⟨spread, read⟩)
      exact absurd placed (ne_head_append spelled present _)
  · intro front piece back cutAt inside final present read
    obtain ⟨inner, spelled⟩ := final
    obtain ⟨front', piece', back', cutAt', forwards, placed⟩ :=
      read_at_piece unstrayed tame (text_within cutAt spelled) read
    obtain ⟨rfl, rfl⟩ := cut_unique cutAt cutAt' spelled present placed
    exact ⟨by rw [← spelled, List.nil_append], forwards⟩

end Tag

/-- A source without diagnostics has no faults in its tags. -/
theorem faults_of_diagnose {ids : InstanceIds} {file : String} {source : List Char}
    (none : diagnose ids file source = []) : ∀ found ∈ scanTags source, Tag.faults ids found = [] := by
  intro found member
  exact List.map_eq_nil_iff.mp (List.flatMap_eq_nil_iff.mp none found member)

end ScopedMarkup
