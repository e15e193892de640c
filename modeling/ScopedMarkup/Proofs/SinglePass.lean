import ScopedMarkup.Preprocess
import ScopedMarkup.Proofs.Words

/-!
# Scoping as one pass over the words

The attributes go on in two passes, and the second one reads what the first one wrote. All
the same the outcome is that of a single pass over the words of the original text: a word
that ends as openings do gets the attribute of the component that starts in it, if one does,
and behind that the attribute of the element that starts in it, if one does and is not exempt.

The reason is that the first pass adds words at a place where a word ends, and no tag starts
in what it adds. The second pass finds every old word as it was, with the same kind of end.
-/

namespace ScopedMarkup

namespace Word

/-- What a word gets as an opening of a component: a blank and the attribute with the id of
the name, or with the empty id. -/
def componentAddition? (ids : InstanceIds) (name : List Char) : Option (List Char) :=
  some (' ' :: (componentAttribute ((ids.get? (String.ofList name)).getD "")).toList)

/-- What a word gets as an opening of an element: a blank and the attribute, unless the
element is exempt. -/
def elementAddition? (name : List Char) : Option (List Char) :=
  if isExemptName name then none else some (' ' :: elementAttribute.toList)

/-- The component attribute of a word that ends before `next`, if it gets one. -/
def componentPart? (ids : InstanceIds) (word : List Char) (next : Char) : Option (List Char) :=
  addition? .component (componentAddition? ids) word next

/-- The element attribute of a word that ends before `next`, if it gets one. -/
def elementPart? (word : List Char) (next : Char) : Option (List Char) :=
  addition? .element elementAddition? word next

/-- A word with its attributes, the component's first. -/
def withParts (ids : InstanceIds) (word : List Char) (next : Char) : List Char :=
  word ++ (componentPart? ids word next).getD [] ++ (elementPart? word next).getD []

/-- The text in which every word has its attributes and nothing else is changed. -/
def scopeAll (ids : InstanceIds) (text : List Char) : List Char :=
  let words := separators.split text
  words.hits.flatMap (fun (word, next) => withParts ids word next ++ [next]) ++ words.tail

/-- How many words of a text get an attribute. -/
def countParts (part? : List Char → Char → Option (List Char)) (text : List Char) : Nat :=
  (separators.split text).hits.countP fun (word, next) => (part? word next).isSome

theorem scopeAll_last (ids : InstanceIds) {word : List Char}
    (named : ∀ c ∈ word, isNameChar c = true) : scopeAll ids word = word := by
  simp [scopeAll, split_last named]

theorem scopeAll_step (ids : InstanceIds) {word : List Char} {next : Char} (rest : List Char)
    (named : ∀ c ∈ word, isNameChar c = true) (ended : isNameChar next = false) :
    scopeAll ids (word ++ next :: rest) = withParts ids word next ++ next :: scopeAll ids rest := by
  simp [scopeAll, split_step rest named ended]

theorem countParts_last (part? : List Char → Char → Option (List Char)) {word : List Char}
    (named : ∀ c ∈ word, isNameChar c = true) : countParts part? word = 0 := by
  simp [countParts, split_last named]

theorem countParts_step (part? : List Char → Char → Option (List Char)) {word : List Char}
    {next : Char} (rest : List Char) (named : ∀ c ∈ word, isNameChar c = true)
    (ended : isNameChar next = false) :
    countParts part? (word ++ next :: rest) =
      (if (part? word next).isSome then 1 else 0) + countParts part? rest := by
  simp [countParts, split_step rest named ended, List.countP_cons, Nat.add_comm]

/-- Elements get their attributes as an addition behind openings. -/
theorem scopeElements_eq (text : List Char) :
    scopeElements text = (Opening.pattern .element).edit (adding elementAddition?) text := by
  have same : (fun opening : Opening =>
      if opening.isExempt then none else some (opening.withAttribute elementAttribute)) =
        adding elementAddition? := by
    funext opening
    by_cases exempt : opening.isExempt = true
    · simp_all [adding, elementAddition?, Opening.isExempt]
    · simp_all [adding, elementAddition?, Opening.isExempt, Opening.withAttribute]
  rw [scopeElements, same]

/-- Components get their attributes as an addition behind openings. -/
theorem scopeComponents_eq (ids : InstanceIds) (text : List Char) :
    scopeComponents ids text =
      (Opening.pattern .component).edit (adding (componentAddition? ids)) text := rfl

/-- The attribute of elements is one word. -/
theorem elementAttribute_named : ∀ c ∈ elementAttribute.toList, isNameChar c = true :=
  List.all_eq_true.mp (by decide)

/-- No tag starts in the attribute of elements. -/
theorem name_elementAttribute (kind : TagKind) : name? kind elementAttribute.toList = none := by
  cases kind <;> decide

/-- A first pass over a word and what follows it. -/
theorem scopeElements_step {word : List Char} {next : Char} (rest : List Char)
    (named : ∀ c ∈ word, isNameChar c = true) (ended : isNameChar next = false) :
    scopeElements (word ++ next :: rest) =
      ⟨word ++ (elementPart? word next).getD [] ++ next :: (scopeElements rest).text,
        (if (elementPart? word next).isSome then 1 else 0) + (scopeElements rest).places⟩ := by
  rw [scopeElements_eq, edit_step elementAddition? rest named ended, scopeElements_eq]
  rfl

/-- A second pass over a word and what follows it. -/
theorem scopeComponents_step (ids : InstanceIds) {word : List Char} {next : Char}
    (rest : List Char) (named : ∀ c ∈ word, isNameChar c = true)
    (ended : isNameChar next = false) :
    scopeComponents ids (word ++ next :: rest) =
      ⟨word ++ (componentPart? ids word next).getD [] ++ next :: (scopeComponents ids rest).text,
        (if (componentPart? ids word next).isSome then 1 else 0) +
          (scopeComponents ids rest).places⟩ := by
  rw [scopeComponents_eq, edit_step (componentAddition? ids) rest named ended, scopeComponents_eq]
  rfl

/-- The attribute of an element goes on a word that ends as openings do, with a blank before it. -/
theorem elementPart_eq_some {word addition : List Char} {next : Char}
    (added : elementPart? word next = some addition) :
    endsOpening next = true ∧ addition = ' ' :: elementAttribute.toList := by
  unfold elementPart? addition? at added
  split at added
  · rename_i opens
    obtain ⟨name, _, present⟩ := Option.bind_eq_some_iff.mp added
    unfold elementAddition? at present
    split at present
    · simp at present
    · exact ⟨opens, (Option.some.inj present).symm⟩
  · simp at added

/-- What the first pass puts behind a word does not matter to what the second one does at
that word. -/
theorem scopeComponents_elementPart (ids : InstanceIds) {word : List Char} {next : Char}
    (rest : List Char) (named : ∀ c ∈ word, isNameChar c = true)
    (ended : isNameChar next = false) :
    scopeComponents ids (word ++ (elementPart? word next).getD [] ++ next :: rest) =
      ⟨withParts ids word next ++ next :: (scopeComponents ids rest).text,
        (if (componentPart? ids word next).isSome then 1 else 0) +
          (scopeComponents ids rest).places⟩ := by
  cases added : elementPart? word next with
  | none =>
    rw [Option.getD_none, List.append_nil, scopeComponents_step ids rest named ended]
    simp [withParts, added]
  | some addition =>
    obtain ⟨opens, written⟩ := elementPart_eq_some added
    have sameEnd : componentPart? ids word ' ' = componentPart? ids word next := by
      have blank : endsOpening ' ' = true := by decide
      simp [componentPart?, addition?, blank, opens]
    have inert : componentPart? ids elementAttribute.toList next = none := by
      simp [componentPart?, addition?, name_elementAttribute]
    have blankEnded : isNameChar ' ' = false := by decide
    have attributeStep := scopeComponents_step ids rest elementAttribute_named ended
    rw [inert] at attributeStep
    have parts : word ++ (some addition).getD [] ++ next :: rest =
        word ++ ' ' :: (elementAttribute.toList ++ next :: rest) := by
      simp [written]
    rw [parts, scopeComponents_step ids _ named blankEnded, attributeStep, sameEnd]
    simp [withParts, added, written]

/-- The first pass counts the words that get the attribute of an element. -/
theorem scopeElements_places (text : List Char) :
    (scopeElements text).places = countParts elementPart? text := by
  induction text using Word.induction with
  | last word named => rw [scopeElements_eq, edit_last elementAddition? named, countParts_last _ named]
  | step word next rest named ended inductionHypothesis =>
    rw [scopeElements_step rest named ended, countParts_step _ rest named ended, inductionHypothesis]

/-- Both passes together are one pass over the words, and the second pass counts the words
that get the attribute of a component. -/
theorem scopeComponents_scopeElements (ids : InstanceIds) (text : List Char) :
    scopeComponents ids (scopeElements text).text =
      ⟨scopeAll ids text, countParts (componentPart? ids) text⟩ := by
  induction text using Word.induction with
  | last word named =>
    rw [scopeElements_eq, edit_last elementAddition? named, scopeComponents_eq,
      edit_last (componentAddition? ids) named, scopeAll_last ids named, countParts_last _ named]
  | step word next rest named ended inductionHypothesis =>
    rw [scopeElements_step rest named ended]
    dsimp only
    rw [scopeComponents_elementPart ids _ named ended, inductionHypothesis,
      scopeAll_step ids rest named ended, countParts_step _ rest named ended]

end Word

/-- Scoping is one simultaneous pass over the words of the source. Both counts are the numbers
of words that get the attribute, in 32 bits as the result has them. -/
theorem scoping_is_one_pass (ids : InstanceIds) (source : String) :
    (scopeComponents ids (scopeElements source.toList).text).text =
        Word.scopeAll ids source.toList ∧
      (scopeSource ids source).tagsScoped =
        UInt32.ofNat (Word.countParts Word.elementPart? source.toList) ∧
      (scopeSource ids source).componentsScoped =
        UInt32.ofNat (Word.countParts (Word.componentPart? ids) source.toList) := by
  have both := Word.scopeComponents_scopeElements ids source.toList
  refine ⟨?_, ?_, ?_⟩
  · rw [both]
  · simp only [scopeSource, Word.scopeElements_places]
  · simp only [scopeSource, both]

end ScopedMarkup
