import ScopedMarkup.CssTarget.Removal

/-!
# Forwarding the parent's scope ids

A tag forwards the ids of its parent if a spread in it mentions `cssTarget`. Such a
tag is found as flat text: `<` with an initial of the kind, the last spread that
begins before the next `>`, and everything up to the first `>` behind that spread.
Neither quotes nor braces are understood here, so the spread may carry the tag over a
`>` that stands in its own text.

Forwarding puts the parent's ids at the head of the tag's scope attribute, in its
first occurrence only, and removes every spread. It therefore goes to work on text
whose tags have their attributes already; a tag without one loses its spreads all the
same.
-/

namespace ScopedMarkup

/-- A tag that carries a spread, as flat text. -/
structure ForwardingTag where
  /-- The first letter of the name. -/
  initial : Char
  /-- What stands between the first letter and the last spread. -/
  before : List Char
  /-- The last spread that begins before the next `>`. -/
  spread : CssSpread
  /-- What stands between the spread and the `>` that ends the tag. -/
  after : List Char
deriving DecidableEq, Repr

/-- The last spread that begins before the next `>` and has a `>` behind it, with
what stands before it and what stands between it and that `>`. -/
def lastSpread? : List Char → Option (List Char × CssSpread × List Char)
  | [] => none
  | c :: rest =>
    if c = '>' then none
    else
      match lastSpread? rest with
      | some (before, spread, after) => some (c :: before, spread, after)
      | none =>
        match CssSpread.read? (c :: rest) with
        | none => none
        | some spread =>
          (Text.cutAt? '>' ((c :: rest).drop spread.text.length)).map fun (after, _) =>
            ([], spread, after)

/-- The last spread begins before any `>`, and the first `>` behind it ends the tag. -/
theorem lastSpread_spec {text before after : List Char} {spread : CssSpread}
    (found : lastSpread? text = some (before, spread, after)) :
    ∃ behind, text = before ++ (spread.text ++ (after ++ '>' :: behind)) ∧ '>' ∉ before ∧
      '>' ∉ after ∧ CssSpread.read? (spread.text ++ (after ++ '>' :: behind)) = some spread := by
  induction text generalizing before with
  | nil => simp [lastSpread?] at found
  | cons c rest inductionHypothesis =>
    rw [lastSpread?] at found
    split at found
    · simp at found
    · rename_i notAngle
      split at found
      · rename_i inner later lastAfter deeper
        obtain ⟨rfl, same⟩ := Prod.mk.inj (Option.some.inj found)
        obtain ⟨rfl, rfl⟩ := Prod.mk.inj same
        obtain ⟨behind, joined, freeBefore, freeAfter, read⟩ := inductionHypothesis deeper
        refine ⟨behind, by rw [joined, List.cons_append], ?_, freeAfter, read⟩
        rw [List.mem_cons, not_or]
        exact ⟨fun same => notAngle same.symm, freeBefore⟩
      · split at found
        · simp at found
        · rename_i here read
          obtain ⟨⟨between, behind⟩, cut, same⟩ := Option.map_eq_some_iff.mp found
          obtain ⟨rfl, others⟩ := Prod.mk.inj same
          obtain ⟨rfl, rfl⟩ := Prod.mk.inj others
          obtain ⟨rest', whole⟩ := CssSpread.eq_text_append_of_read read
          rw [whole, List.drop_left] at cut
          obtain ⟨joined, free⟩ := (Text.cutAt?_eq_some_iff ..).mp cut
          rw [joined] at whole
          rw [whole] at read
          exact ⟨behind, by rw [whole, List.nil_append], List.not_mem_nil, free, read⟩

namespace ForwardingTag

/-- A tag as it is written. -/
def text (tag : ForwardingTag) : List Char :=
  '<' :: tag.initial :: tag.before ++ tag.spread.text ++ tag.after ++ ['>']

/-- The forwarding tag of a kind at the head of a text. -/
def read? (kind : TagKind) : List Char → Option ForwardingTag
  | '<' :: initial :: rest =>
    if kind.isInitial initial then
      (lastSpread? rest).map fun (before, spread, after) => ⟨initial, before, spread, after⟩
    else none
  | _ => none

/-- A forwarding tag is read from its own characters. -/
theorem text_of_read {kind : TagKind} {input : List Char} {tag : ForwardingTag}
    (read : read? kind input = some tag) : tag.text ≠ [] ∧ tag.text <+: input := by
  unfold read? at read
  split at read
  · split at read
    · obtain ⟨⟨before, spread, after⟩, found, rfl⟩ := Option.map_eq_some_iff.mp read
      obtain ⟨behind, joined, _⟩ := lastSpread_spec found
      refine ⟨List.cons_ne_nil _ _, behind, ?_⟩
      rw [joined, text]
      simp only [List.cons_append, List.append_assoc, List.nil_append]
    · exact nomatch read
  · exact nomatch read

/-- The forwarding tags of a kind. -/
def pattern (kind : TagKind) : Pattern ForwardingTag := ⟨read? kind, text, text_of_read⟩

/-- The tag as it is written once it forwards: the parent's ids stand at the head of
its scope attribute and the spreads are gone. -/
def merged (kind : TagKind) (tag : ForwardingTag) : List Char :=
  withoutSpreads <|
    Text.insertAfterFirst kind.attributeOpening.toList inheritedIdsEntry.toList tag.text

end ForwardingTag

/-- The text with every tag of a kind that carries a spread made to forward. -/
def forwardScope (kind : TagKind) (text : List Char) : Edit :=
  (ForwardingTag.pattern kind).edit (fun tag => some (tag.merged kind)) text

end ScopedMarkup
