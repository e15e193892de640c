import Mathlib.Data.List.Infix
import ScopedMarkup.Proofs.Bindings
import ScopedMarkup.Proofs.Passes

/-!
# What scoping adds

Scoping writes blanks and attributes behind words and takes nothing away, so the source is found in
its result with additions between its characters. An addition stands between the end of a word and
the character that ends the word. Hence a text of name characters can neither go over such a place
nor be cut by what is put there: it occurs as often as it did in the source, and in addition as
often as it occurs within the attributes.

The instance id of a component is set off in its attribute, by the backtick before it and the blank
behind it. So a text without these occurs in the attribute where it occurs in every attribute of a
component or in the id. Each name of an attribute, with its equals sign, occurs once in the
attributes of its kind and not in those of the other, so that counting it counts the attributes
that were added. No attribute mentions `cssTarget`, and where nothing does, no tag forwards a
scope.
-/

namespace ScopedMarkup

namespace Text

/-- At how many places of a text `wanted` stands. -/
def occurrences (wanted text : List Char) : Nat := text.tails.countP wanted.isPrefixOf

theorem occurrences_cons (wanted : List Char) (c : Char) (rest : List Char) :
    occurrences wanted (c :: rest) =
      occurrences wanted rest + if wanted.isPrefixOf (c :: rest) then 1 else 0 := by
  rw [occurrences, List.tails_cons, List.countP_cons]
  rfl

/-- What is contained stands somewhere. -/
theorem occurrences_eq_zero_iff {wanted text : List Char} :
    occurrences wanted text = 0 ↔ contains wanted text = false := by
  rw [← Bool.not_eq_true, contains_iff, List.infix_iff_prefix_suffix, occurrences,
    List.countP_eq_zero]
  constructor
  · rintro nowhere ⟨inside, initial, final⟩
    exact nowhere inside ((List.mem_tails inside text).mpr final) (List.isPrefixOf_iff_prefix.mpr initial)
  · intro absent inside member initial
    exact absent ⟨inside, List.isPrefixOf_iff_prefix.mp initial, (List.mem_tails inside text).mp member⟩

/-- Nothing stands in the empty text but the empty text. -/
theorem occurrences_nil {wanted : List Char} (present : wanted ≠ []) : occurrences wanted [] = 0 := by
  refine occurrences_eq_zero_iff.mpr ?_
  rw [contains, List.isEmpty_eq_false_iff]
  exact present

/-- A text does not go over a character that it does not hold. -/
theorem prefix_append_cons_iff {wanted front : List Char} {c : Char} (absent : c ∉ wanted)
    (behind : List Char) : wanted <+: front ++ c :: behind ↔ wanted <+: front :=
  ⟨prefix_of_absent absent, fun initial => initial.trans (List.prefix_append front (c :: behind))⟩

/-- So it stands on one side of the character wherever it stands. -/
theorem occurrences_append_cons {wanted : List Char} {c : Char} (absent : c ∉ wanted)
    (front behind : List Char) : occurrences wanted (front ++ c :: behind) =
      occurrences wanted front + occurrences wanted behind := by
  have same : ∀ inside, wanted.isPrefixOf (inside ++ c :: behind) = wanted.isPrefixOf inside := by
    intro inside
    rw [Bool.eq_iff_iff, List.isPrefixOf_iff_prefix, List.isPrefixOf_iff_prefix,
      prefix_append_cons_iff absent]
  induction front with
  | nil =>
    have alone : occurrences wanted [] = if wanted.isPrefixOf [] then 1 else 0 := by
      simp [occurrences, List.countP_cons]
    rw [List.nil_append, occurrences_cons, ← List.nil_append (c :: behind), same [], alone,
      Nat.add_comm]
  | cons first others inductionHypothesis =>
    have here := same (first :: others)
    rw [List.cons_append] at here
    rw [List.cons_append, occurrences_cons, here, inductionHypothesis, occurrences_cons]
    omega

end Text

/-- The name of the attribute of a kind, with its equals sign. -/
def TagKind.binder (kind : TagKind) : List Char := (kind.attributeName ++ "=").toList

/-- No instance id holds any of some texts. -/
def InstanceIds.Omits (ids : InstanceIds) (texts : List (List Char)) : Prop :=
  ∀ entry ∈ ids.entries, ∀ text ∈ texts, Text.contains text entry.2.toList = false

instance (ids : InstanceIds) (texts : List (List Char)) : Decidable (ids.Omits texts) :=
  inferInstanceAs (Decidable (∀ entry ∈ ids.entries, ∀ text ∈ texts, _))

/-- What is looked up holds none of them either. -/
theorem InstanceIds.Omits.getD {ids : InstanceIds} {texts : List (List Char)} (omits : ids.Omits texts)
    {text : List Char} (member : text ∈ texts) (present : text ≠ []) (name : String) :
    Text.contains text ((ids.get? name).getD "").toList = false := by
  cases found : ids.get? name with
  | none => exact Text.occurrences_eq_zero_iff.mp (Text.occurrences_nil present)
  | some id => exact omits (name, id) (get?_eq_some_iff.mp found) text member

namespace Word

/-- The attribute of a component goes on a word with a blank before it, and with the id of some
name. -/
theorem componentPart_eq_some {ids : InstanceIds} {word addition : List Char} {next : Char}
    (added : componentPart? ids word next = some addition) :
    ∃ name, addition = ' ' :: (componentAttribute ((ids.get? name).getD "")).toList := by
  unfold componentPart? addition? at added
  split at added
  · obtain ⟨name, _, present⟩ := Option.bind_eq_some_iff.mp added
    exact ⟨String.ofList name, (Option.some.inj present).symm⟩
  · simp at added

/-- A word keeps its characters when its attributes are put behind it. -/
theorem prefix_withParts (ids : InstanceIds) (word : List Char) (next : Char) :
    word <+: withParts ids word next := by
  rw [withParts, List.append_assoc]
  exact List.prefix_append word _

/-- Scoping only adds characters. -/
theorem sublist_scopeAll (ids : InstanceIds) (text : List Char) : text.Sublist (scopeAll ids text) := by
  induction text using Word.induction with
  | last word named =>
    rw [scopeAll_last ids named]
  | step word next rest named ended inductionHypothesis =>
    rw [scopeAll_step ids rest named ended]
    exact (prefix_withParts ids word next).sublist.append (inductionHypothesis.cons_cons next)

/-- At most one attribute of a kind is added for each character that ends a word. -/
theorem countParts_le_length (part? : List Char → Char → Option (List Char)) (text : List Char) :
    countParts part? text ≤ text.length := by
  induction text using Word.induction with
  | last word named =>
    rw [countParts_last part? named]
    exact Nat.zero_le _
  | step word next rest named ended inductionHypothesis =>
    have one : (if (part? word next).isSome then 1 else 0) ≤ 1 := by split <;> omega
    rw [countParts_step part? rest named ended, List.length_append, List.length_cons]
    omega

section Counting

variable {wanted : List Char} (present : wanted ≠ [])
  (named : ∀ c ∈ wanted, isNameChar c = true) (unquoted : '`' ∉ wanted)
include named

/-- What ends a word stands in no text of name characters. -/
theorem not_mem_of_ended {next : Char} (ended : isNameChar next = false) : next ∉ wanted := by
  intro member
  rw [named next member] at ended
  exact Bool.false_ne_true ended.symm

include present unquoted

/-- In the attribute of a component such a text stands where it stands in all of them, or in the
instance id. -/
theorem occurrences_componentAttribute (id : String) :
    Text.occurrences wanted (componentAttribute id).toList =
      Text.occurrences wanted (componentAttribute "").toList + Text.occurrences wanted id.toList := by
  have blank : ' ' ∉ wanted := not_mem_of_ended named (by decide)
  have parts : ∀ id : String, Text.occurrences wanted (componentAttribute id).toList =
      Text.occurrences wanted "dataSveltesheetIds=\x7b".toList + (Text.occurrences wanted id.toList +
        Text.occurrences wanted (interpolation runtimeIdVariable ++ attributeClosing).toList) := by
    intro id
    have spelled : (componentAttribute id).toList = "dataSveltesheetIds=\x7b".toList ++
        '`' :: (id.toList ++
          ' ' :: (interpolation runtimeIdVariable ++ attributeClosing).toList) := by
      simp [componentAttribute, TagKind.attributeOpening, TagKind.attributeName, String.toList_append]
    rw [spelled, Text.occurrences_append_cons unquoted, Text.occurrences_append_cons blank]
  have nothing : Text.occurrences wanted "".toList = 0 := Text.occurrences_nil present
  rw [parts id, parts "", nothing]
  omega

/-- What the attributes of a word add to the occurrences of such a text, if no instance id holds
it. -/
theorem occurrences_withParts {ids : InstanceIds} {texts : List (List Char)}
    (omits : ids.Omits texts) (member : wanted ∈ texts) (word : List Char) (next : Char) :
    Text.occurrences wanted (withParts ids word next) = Text.occurrences wanted word +
      ((if (componentPart? ids word next).isSome then 1 else 0) *
          Text.occurrences wanted (componentAttribute "").toList +
        (if (elementPart? word next).isSome then 1 else 0) *
          Text.occurrences wanted elementAttribute.toList) := by
  have blank : ' ' ∉ wanted := not_mem_of_ended named (by decide)
  have component : ∀ front, Text.occurrences wanted (front ++ (componentPart? ids word next).getD []) =
      Text.occurrences wanted front + (if (componentPart? ids word next).isSome then 1 else 0) *
        Text.occurrences wanted (componentAttribute "").toList := by
    intro front
    cases added : componentPart? ids word next with
    | none => simp
    | some addition =>
      obtain ⟨name, rfl⟩ := componentPart_eq_some added
      have absent := Text.occurrences_eq_zero_iff.mpr (omits.getD member present name)
      simp only [Option.getD_some, Option.isSome_some, if_true, Nat.one_mul]
      rw [Text.occurrences_append_cons blank,
        occurrences_componentAttribute present named unquoted, absent, Nat.add_zero]
  have element : ∀ front, Text.occurrences wanted (front ++ (elementPart? word next).getD []) =
      Text.occurrences wanted front + (if (elementPart? word next).isSome then 1 else 0) *
        Text.occurrences wanted elementAttribute.toList := by
    intro front
    cases added : elementPart? word next with
    | none => simp
    | some addition =>
      obtain ⟨_, rfl⟩ := elementPart_eq_some added
      simp only [Option.getD_some, Option.isSome_some, if_true, Nat.one_mul]
      rw [Text.occurrences_append_cons blank]
  rw [withParts, element, component, Nat.add_assoc]

/-- What scoping adds to the occurrences of such a text: those in the attributes of components and
those in the attributes of elements. -/
theorem occurrences_scopeAll {ids : InstanceIds} {texts : List (List Char)} (omits : ids.Omits texts)
    (member : wanted ∈ texts) (text : List Char) :
    Text.occurrences wanted (scopeAll ids text) = Text.occurrences wanted text +
      (countParts (componentPart? ids) text * Text.occurrences wanted (componentAttribute "").toList +
        countParts elementPart? text * Text.occurrences wanted elementAttribute.toList) := by
  induction text using Word.induction with
  | last word inWord =>
    rw [scopeAll_last ids inWord, countParts_last _ inWord, countParts_last _ inWord]
    simp
  | step word next rest inWord ended inductionHypothesis =>
    have outside := not_mem_of_ended named ended
    rw [scopeAll_step ids rest inWord ended, countParts_step _ rest inWord ended,
      countParts_step _ rest inWord ended, Text.occurrences_append_cons outside,
      Text.occurrences_append_cons outside, inductionHypothesis,
      occurrences_withParts present named unquoted omits member, Nat.add_mul, Nat.add_mul]
    omega

end Counting

end Word

/-- Where `cssTarget` is not mentioned, no flat spread is read. -/
theorem CssSpread.silent_of_unmentioned {text : List Char}
    (unmentioned : Text.contains cssTargetName text = false) : pattern.Silent text [] := by
  refine Pattern.silent_of_forall_ne fun inside spread final _ read => ?_
  obtain ⟨⟨behind, rfl⟩, _, _, mentioned⟩ := read_eq_some_iff.mp read
  have inText : cssTargetName <:+: spread.text := by
    refine mentioned.trans ⟨'{' :: spread.blanks ++ ['.', '.', '.'], ['}'], ?_⟩
    simp [CssSpread.text]
  have occurs : cssTargetName <:+: text :=
    (inText.trans (List.prefix_append _ behind).isInfix).trans final.isInfix
  rw [← Text.contains_iff, unmentioned] at occurs
  exact absurd occurs Bool.false_ne_true

/-- The texts whose occurrences tell what scoping adds. -/
def scopingMarks : List (List Char) :=
  [cssTargetName, TagKind.element.binder, TagKind.component.binder]

/-- The marks in a scoped source are those of the source and one binder for each attribute. -/
theorem occurrences_scopedSource {ids : InstanceIds} (omits : ids.Omits scopingMarks)
    (source : List Char) :
    Text.occurrences cssTargetName (scopedSource ids source) =
        Text.occurrences cssTargetName source ∧
      Text.occurrences TagKind.element.binder (scopedSource ids source) =
        Text.occurrences TagKind.element.binder source + (scopeElements source).places ∧
      Text.occurrences TagKind.component.binder (scopedSource ids source) =
        Text.occurrences TagKind.component.binder source +
          (scopeComponents ids (scopeElements source).text).places := by
  have each : ∀ wanted ∈ scopingMarks,
      wanted ≠ [] ∧ wanted.all isNameChar = true ∧ '`' ∉ wanted := by decide
  have counted : ∀ wanted ∈ scopingMarks, _ := fun wanted member =>
    Word.occurrences_scopeAll (each wanted member).1
      (List.all_eq_true.mp (each wanted member).2.1) (each wanted member).2.2 omits member source
  have inComponent : scopingMarks.map (Text.occurrences · (componentAttribute "").toList) =
      [0, 0, 1] := by decide
  have inElement : scopingMarks.map (Text.occurrences · elementAttribute.toList) = [0, 1, 0] := by
    decide
  simp only [scopingMarks, List.map_cons, List.map_nil, List.cons.injEq, and_true] at inComponent inElement
  simp only [scopingMarks, List.forall_mem_cons] at counted
  obtain ⟨target, element, component, _⟩ := counted
  rw [scopedSource, Word.scopeComponents_scopeElements, Word.scopeElements_places]
  refine ⟨?_, ?_, ?_⟩
  · rw [target, inComponent.1, inElement.1]
    omega
  · rw [element, inComponent.2.1, inElement.2.1]
    omega
  · rw [component, inComponent.2.2, inElement.2.2, Nat.mul_one, Nat.mul_zero, Nat.add_zero]

/-- Whether a result has all of its source, attributes besides, and counters that tell how many of
them there are. -/
structure PreprocessResult.OnlyAdds (result : PreprocessResult) (ids : InstanceIds)
    (source : String) : Prop where
  /-- No tag was made to forward a scope. -/
  unresolved : result.cssTargetsResolved = 0
  /-- The text is the one with the attributes. -/
  code : result.code.toList = (scopeComponents ids (scopeElements source.toList).text).text
  /-- The source is left when characters are taken out of the text. -/
  kept : source.toList.Sublist result.code.toList
  /-- There is one more binder of elements for each element that got its attribute. -/
  elements : Text.occurrences TagKind.element.binder result.code.toList =
    Text.occurrences TagKind.element.binder source.toList + (scopeElements source.toList).places
  /-- The first counter has their number, in 32 bits. -/
  tagsScoped : result.tagsScoped = UInt32.ofNat (scopeElements source.toList).places
  /-- There is one more binder of components for each component that got its attribute. -/
  components : Text.occurrences TagKind.component.binder result.code.toList =
    Text.occurrences TagKind.component.binder source.toList +
      (scopeComponents ids (scopeElements source.toList).text).places
  /-- The second counter has their number, in 32 bits. -/
  componentsScoped : result.componentsScoped =
    UInt32.ofNat (scopeComponents ids (scopeElements source.toList).text).places
  /-- No counter wraps as long as the characters of the source can be counted in 32 bits. -/
  counted : source.length < UInt32.size →
    Text.occurrences TagKind.element.binder result.code.toList =
        Text.occurrences TagKind.element.binder source.toList + result.tagsScoped.toNat ∧
      Text.occurrences TagKind.component.binder result.code.toList =
        Text.occurrences TagKind.component.binder source.toList + result.componentsScoped.toNat

/-- Without `cssTarget` in the source and in the instance ids, scoping only adds, and its counters
tell what it adds as long as no instance id holds the binder of an attribute. -/
theorem scoping_only_adds {ids : InstanceIds} {source : String}
    (unmentioned : Text.contains cssTargetName source.toList = false)
    (omits : ids.Omits scopingMarks) : (scopeSource ids source).OnlyAdds ids source := by
  obtain ⟨target, element, component⟩ := occurrences_scopedSource omits source.toList
  have absent : Text.contains cssTargetName (scopedSource ids source.toList) = false := by
    rw [← Text.occurrences_eq_zero_iff, target, Text.occurrences_eq_zero_iff]
    exact unmentioned
  have inert : ∀ kind, forwardScope kind (scopedSource ids source.toList) =
      ⟨scopedSource ids source.toList, 0⟩ := fun kind =>
    forwardScope_of_silent kind (CssSpread.silent_of_unmentioned absent)
  have written : (scopeSource ids source).code.toList = scopedSource ids source.toList := by
    rw [code_eq, inert .element, inert .component]
  have whole : scopedSource ids source.toList = Word.scopeAll ids source.toList := by
    rw [scopedSource, Word.scopeComponents_scopeElements]
  have fits : ∀ part? : List Char → Char → Option (List Char), source.length < UInt32.size →
      (UInt32.ofNat (Word.countParts part? source.toList)).toNat =
        Word.countParts part? source.toList := by
    intro part? short
    have few := Word.countParts_le_length part? source.toList
    rw [String.length_toList] at few
    exact UInt32.toNat_ofNat_of_lt' (Nat.lt_of_le_of_lt few short)
  rw [← written] at element component
  refine ⟨?_, written, ?_, element, rfl, component, rfl, fun short => ⟨?_, ?_⟩⟩
  · show UInt32.ofNat ((forwardScope .element (scopedSource ids source.toList)).places +
      (forwardScope .component
        (forwardScope .element (scopedSource ids source.toList)).text).places) = 0
    rw [inert .element, inert .component]
    rfl
  · rw [written, whole]
    exact Word.sublist_scopeAll ids source.toList
  · show _ = _ + (UInt32.ofNat (scopeElements source.toList).places).toNat
    rw [element, Word.scopeElements_places, fits Word.elementPart? short]
  · show _ = _ + (UInt32.ofNat
      (scopeComponents ids (scopeElements source.toList).text).places).toNat
    rw [component, Word.scopeComponents_scopeElements]
    show _ + Word.countParts _ _ = _ + (UInt32.ofNat (Word.countParts _ _)).toNat
    rw [fits (Word.componentPart? ids) short]

/-- Nested openings, an exempt tag, an opening that the text ends, and a binder that is there
before. The id has a blank and braces. Each kind has one binder more, and each counter is one. -/
theorem scoping_only_adds_nested :
    (scopeSource ⟨[("B", "k \x7bcssTarge\x7d")], by decide⟩
        "<a<B >data-sveltesheet-ids=<script><p/><i").OnlyAdds
          ⟨[("B", "k \x7bcssTarge\x7d")], by decide⟩ "<a<B >data-sveltesheet-ids=<script><p/><i" ∧
      Text.occurrences TagKind.element.binder (scopeSource ⟨[("B", "k \x7bcssTarge\x7d")], by decide⟩
        "<a<B >data-sveltesheet-ids=<script><p/><i").code.toList = 2 ∧
      Text.occurrences TagKind.component.binder (scopeSource ⟨[("B", "k \x7bcssTarge\x7d")], by decide⟩
        "<a<B >data-sveltesheet-ids=<script><p/><i").code.toList = 1 ∧
      (scopeSource ⟨[("B", "k \x7bcssTarge\x7d")], by decide⟩
        "<a<B >data-sveltesheet-ids=<script><p/><i").tagsScoped = 1 ∧
      (scopeSource ⟨[("B", "k \x7bcssTarge\x7d")], by decide⟩
        "<a<B >data-sveltesheet-ids=<script><p/><i").componentsScoped = 1 ∧
      (scopeSource ⟨[("B", "k \x7bcssTarge\x7d")], by decide⟩
        "<a<B >data-sveltesheet-ids=<script><p/><i").cssTargetsResolved = 0 := by
  have adds := @scoping_only_adds ⟨[("B", "k \x7bcssTarge\x7d")], by decide⟩
    "<a<B >data-sveltesheet-ids=<script><p/><i" (by decide +kernel) (by decide +kernel)
  refine ⟨adds, ?_, ?_, ?_, ?_, adds.unresolved⟩
  · rw [adds.elements]
    decide +kernel
  · rw [adds.components]
    decide +kernel
  · rw [adds.tagsScoped]
    decide +kernel
  · rw [adds.componentsScoped]
    decide +kernel

end ScopedMarkup
