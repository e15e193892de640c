/-!
# Blank characters

Two classes of blank characters rule the markup, and neither contains the other.
Scripts embedded in markup separate their tokens by ECMAScript white space, which
holds the byte order mark U+FEFF and leaves out the next-line control U+0085; tag
names end there. Trimming follows the Unicode property `White_Space`, which holds
U+0085 and leaves out U+FEFF.

Both are tables of code point ranges, so membership is decided by comparison alone.
-/

namespace ScopedMarkup.Text

/-- The ranges of ECMAScript white space and line terminators, ends included. -/
def scriptBlankRanges : List (Nat × Nat) :=
  [(0x09, 0x0D), (0x20, 0x20), (0xA0, 0xA0), (0x1680, 0x1680), (0x2000, 0x200A),
    (0x2028, 0x2029), (0x202F, 0x202F), (0x205F, 0x205F), (0x3000, 0x3000), (0xFEFF, 0xFEFF)]

/-- The ranges of the Unicode property `White_Space`, ends included. -/
def unicodeBlankRanges : List (Nat × Nat) :=
  [(0x09, 0x0D), (0x20, 0x20), (0x85, 0x85), (0xA0, 0xA0), (0x1680, 0x1680), (0x2000, 0x200A),
    (0x2028, 0x2029), (0x202F, 0x202F), (0x205F, 0x205F), (0x3000, 0x3000)]

/-- Membership of a character in a table of code point ranges. -/
def inRanges (ranges : List (Nat × Nat)) (c : Char) : Bool :=
  ranges.any fun range => range.1 ≤ c.toNat && c.toNat ≤ range.2

/-- Blank between the tokens of an embedded script, and the end of a tag's name. -/
def isScriptBlank (c : Char) : Bool := inRanges scriptBlankRanges c

/-- Blank for trimming. -/
def isUnicodeBlank (c : Char) : Bool := inRanges unicodeBlankRanges c

/-- The text without the blanks at its start. -/
def trimStart (text : List Char) : List Char := text.dropWhile isUnicodeBlank

/-- The text without the blanks at its end. -/
def trimEnd (text : List Char) : List Char :=
  (text.reverse.dropWhile isUnicodeBlank).reverse

/-- The text without the blanks at both ends. -/
def trim (text : List Char) : List Char := trimEnd (trimStart text)

/-- Away from U+0085 and U+FEFF the two classes agree. -/
theorem isScriptBlank_eq_isUnicodeBlank {c : Char} (nextLine : c.toNat ≠ 0x85)
    (mark : c.toNat ≠ 0xFEFF) : isScriptBlank c = isUnicodeBlank c := by
  have outside : (decide (0x85 ≤ c.toNat) && decide (c.toNat ≤ 0x85)) = false := by
    simp only [Bool.and_eq_false_iff, decide_eq_false_iff_not]; omega
  have unmarked : (decide (0xFEFF ≤ c.toNat) && decide (c.toNat ≤ 0xFEFF)) = false := by
    simp only [Bool.and_eq_false_iff, decide_eq_false_iff_not]; omega
  simp only [isScriptBlank, isUnicodeBlank, inRanges, scriptBlankRanges, unicodeBlankRanges,
    List.any_cons, List.any_nil, outside, unmarked, Bool.or_false, Bool.false_or]

/-- Trimming at the end keeps an initial part. -/
theorem trimEnd_isPrefix (text : List Char) : trimEnd text <+: text := by
  have suffix : text.reverse.dropWhile isUnicodeBlank <:+ text.reverse := List.dropWhile_suffix _
  simpa only [trimEnd, List.reverse_reverse] using List.reverse_prefix.mpr suffix

end ScopedMarkup.Text
