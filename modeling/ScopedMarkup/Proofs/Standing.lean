import ScopedMarkup.Proofs.Words

/-!
# Standing tags

A tag stands before a text if it is read there as itself. That takes three things: it has a name
of its kind, the name ends where its body begins, and the run of pieces behind the name is its
body and leads to its end. What stands before a text decides all this together with that text.

An unclosed tag takes all of the text that is left, so nothing stands behind it. No name goes over
the `>` of a closed tag. Either way the openings that are read in a tag are the same without what
stands behind it.
-/

namespace ScopedMarkup

/-- A text whose head fails a test is dropped as it is, and nothing of it is taken. -/
theorem Text.takeWhile_of_head {test : Char → Bool} {text : List Char}
    (fails : ∀ c ∈ text.head?, test c = false) :
    text.takeWhile test = [] ∧ text.dropWhile test = text := by
  cases text with
  | nil => exact ⟨rfl, rfl⟩
  | cons c rest =>
    have here : test c = false := fails c rfl
    simp [here]

/-- An ending that is not closed is all that was left. -/
theorem Ending.eq_of_ofRest {left rest : List Char} (ended : ofRest left = unclosed rest) :
    left = rest := by
  unfold ofRest at ended
  split at ended
  · exact nomatch ended
  · exact Ending.unclosed.inj ended

namespace Opening

/-- A name that ends before a `>` of the text is read without what stands behind the text. -/
theorem read_append (kind : TagKind) (first : Char) {rest : List Char} (angle : '>' ∈ rest)
    (behind : List Char) :
    read? kind ('<' :: first :: (rest ++ behind)) = read? kind ('<' :: first :: rest) := by
  have stops : rest.dropWhile isNameChar ≠ [] := by
    intro used
    have closing : isNameChar '>' = false := by decide
    exact absurd (List.dropWhile_eq_nil_iff.mp used '>' angle) (by simp [closing])
  obtain ⟨next, left, dropped⟩ := List.exists_cons_of_ne_nil stops
  have kept : (rest ++ behind).dropWhile isNameChar = rest.dropWhile isNameChar ++ behind := by
    rw [List.dropWhile_append, if_neg]
    simp [dropped]
  have taken : (rest ++ behind).takeWhile isNameChar = rest.takeWhile isNameChar := by
    rw [List.takeWhile_append, if_neg]
    intro whole
    have sizes := congrArg List.length
      (List.takeWhile_append_dropWhile (p := isNameChar) (l := rest))
    rw [List.length_append, dropped, List.length_cons] at sizes
    omega
  simp only [read?, taken, kept, dropped, List.cons_append, endsBefore]

/-- The openings that are read in a text which ends with `>` are the same whatever stands behind
it, for no name goes over the `>`. -/
theorem apart_of_getLast {text : List Char} (ends : text.getLast? = some '>') (kind : TagKind)
    (behind : List Char) : (pattern kind).Apart text behind := by
  intro inside final present
  rw [Text.getLast?_of_suffix final present] at ends
  show read? kind (inside ++ behind) = read? kind inside
  match inside with
  | [] => exact absurd rfl present
  | [c] =>
    have closing : c = '>' := by simpa using ends
    simp [read?, closing]
  | [c, first] =>
    have closing : first = '>' := by simpa using ends
    subst closing
    have noInitial : kind.isInitial '>' = false := by cases kind <;> decide
    by_cases opened : c = '<'
    · simp [read?, opened, noInitial]
    · simp [read?, opened]
  | c :: first :: next :: more =>
    have angle : '>' ∈ next :: more := by
      rw [List.getLast?_cons_cons, List.getLast?_cons_cons] at ends
      exact List.mem_of_getLast? ends
    by_cases opened : c = '<'
    · subst opened
      exact read_append kind first angle behind
    · simp [read?, opened]

end Opening

namespace Tag

/-- The text of a tag behind its name. -/
def rest (tag : Tag) : List Char := tag.body.flatMap Piece.text ++ tag.ending.text

theorem text_eq_head_append (tag : Tag) : tag.text = tag.head ++ tag.rest := by
  rw [text, rest, List.append_assoc]

variable {tag : Tag} {behind : List Char}

/-- Whether a tag is read as itself before a text. -/
def Stands (tag : Tag) (behind : List Char) : Prop := read? (tag.text ++ behind) = some tag

instance (tag : Tag) (behind : List Char) : Decidable (tag.Stands behind) :=
  inferInstanceAs (Decidable (_ = _))

/-- The name begins with an initial of the kind and goes on with name characters. -/
def IsNamed (tag : Tag) : Prop :=
  ∃ first others, tag.name = first :: others ∧ tag.kind.isInitial first = true ∧
    ∀ c ∈ others, isNameChar c = true

/-- A named tag starts its own text. -/
theorem IsNamed.starts (named : tag.IsNamed) (behind : List Char) :
    tag.kind.starts (tag.head ++ behind) = true := by
  obtain ⟨first, others, spelled, initial, _⟩ := named
  simp [head, spelled, initial]

/-- The name of a named tag consists of name characters. -/
theorem IsNamed.name_named (named : tag.IsNamed) : ∀ c ∈ tag.name, isNameChar c = true := by
  obtain ⟨first, others, spelled, initial, inner⟩ := named
  rw [spelled]
  intro c member
  rcases List.mem_cons.mp member with rfl | later
  · exact Word.isNameChar_of_isInitial initial
  · exact inner c later

/-- What it takes to stand before a text. -/
theorem stands_iff : tag.Stands behind ↔
    tag.IsNamed ∧ (∀ c ∈ (tag.rest ++ behind).head?, isNameChar c = false) ∧
      (Piece.pattern.many (tag.rest ++ behind)).1 = tag.body ∧
      Ending.ofRest (Piece.pattern.many (tag.rest ++ behind)).2 = tag.ending := by
  have whole : tag.text ++ behind = '<' :: (tag.name ++ (tag.rest ++ behind)) := by
    rw [text_eq_head_append, head, List.append_assoc]
    rfl
  unfold Stands
  rw [whole]
  constructor
  · intro read
    unfold read? at read
    split at read
    · rename_i first left spelled
      obtain ⟨kind, initial, same⟩ := Option.map_eq_some_iff.mp read
      have name : first :: left.takeWhile isNameChar = tag.name := congrArg Tag.name same
      have sameKind : kind = tag.kind := congrArg Tag.kind same
      rw [← name, List.cons_append] at spelled
      have joined : left.takeWhile isNameChar ++ (tag.rest ++ behind) = left :=
        (List.cons.inj (List.cons.inj spelled).2).2
      have dropped : tag.rest ++ behind = left.dropWhile isNameChar := by
        refine List.append_cancel_left (joined.trans ?_)
        exact List.takeWhile_append_dropWhile.symm
      have stops := List.head?_dropWhile_not isNameChar left
      rw [dropped]
      refine ⟨⟨first, left.takeWhile isNameChar, name.symm, ?_, ?_⟩, ?_, congrArg Tag.body same,
        congrArg Tag.ending same⟩
      · exact (TagKind.ofInitial?_eq_some_iff first tag.kind).mp (sameKind ▸ initial)
      · exact fun c member => List.mem_takeWhile_imp member
      · intro c member
        rw [Option.mem_def] at member
        simpa [member] using stops
    · exact nomatch read
  · rintro ⟨⟨first, others, named, initial, inner⟩, ended, body, ending⟩
    obtain ⟨noneTaken, allLeft⟩ := Text.takeWhile_of_head ended
    have known : TagKind.ofInitial? first = some tag.kind :=
      (TagKind.ofInitial?_eq_some_iff first tag.kind).mpr initial
    rw [named, List.cons_append, read?, known, List.takeWhile_append_of_pos inner,
      List.dropWhile_append_of_pos inner, noneTaken, allLeft, List.append_nil, Option.map_some]
    obtain ⟨kind, name, pieces, last⟩ := tag
    simp only at named body ending ⊢
    rw [body, ending, named]

namespace Stands

theorem named (stands : tag.Stands behind) : tag.IsNamed := (stands_iff.mp stands).1

/-- Nothing stands behind an unclosed tag. -/
theorem behind_eq_nil (stands : tag.Stands behind) (unclosed : tag.isClosed = false) :
    behind = [] := by
  obtain ⟨_, _, body, ending⟩ := stands_iff.mp stands
  obtain ⟨whole, _⟩ := Piece.pattern.many_spec (tag.rest ++ behind)
  cases last : tag.ending with
  | closed => simp [isClosed, last] at unclosed
  | unclosed left =>
    rw [last] at ending
    rw [body, Ending.eq_of_ofRest ending] at whole
    have spelled : tag.rest = tag.body.flatMap Piece.text ++ left := by
      rw [rest, last]
      rfl
    have same : tag.rest ++ behind = tag.rest := whole.trans spelled.symm
    exact List.append_right_eq_self.mp same

/-- What stands behind the name of a tag begins with no name character. -/
theorem ended (stands : tag.Stands behind) : ∀ c ∈ tag.rest.head?, isNameChar c = false := by
  intro c member
  refine (stands_iff.mp stands).2.1 c ?_
  rw [Option.mem_def] at member ⊢
  rw [List.head?_append, member]
  rfl

/-- Nor does it begin with a letter. -/
theorem headIsNoLetter_rest (stands : tag.Stands behind) : Text.headIsNoLetter tag.rest = true := by
  have ended := stands.ended
  cases spelled : tag.rest with
  | nil => rfl
  | cons next others =>
    rw [spelled] at ended
    by_cases letter : next.isAlpha = true
    · obtain ⟨kind, initial⟩ := (TagKind.isInitial_iff_isAlpha next).mpr letter
      have fails := ended next rfl
      rw [Word.isNameChar_of_isInitial initial] at fails
      exact absurd fails Bool.false_ne_true.symm
    · simpa [Text.headIsNoLetter] using letter

end Stands

end Tag

end ScopedMarkup
