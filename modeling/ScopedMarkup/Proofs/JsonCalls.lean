import Mathlib.Data.List.Forall2
import ScopedMarkup.Proofs.JsonRecords
import ScopedMarkup.Service

/-!
# Calls that pass JSON

A call that passes encoded arguments is answered as the library answers for the arguments
themselves. Whoever encodes them may choose the order of the fields of a record and of the entries
of a table. What is read may therefore be another table than the one that was meant, but it has the
same ids under the same names, and no pass and no rule sees more of a table than that.

The answer to a batch is one text. It is read as a list with one member for each source, in the
order of the sources, and each member names the outcome of its source and holds it whole.
-/

namespace ScopedMarkup

section Tables

variable {ids others : InstanceIds} (same : ∀ name, ids.get? name = others.get? name)
include same

/-- Scoping sees of a table what is found under the names. -/
theorem scopeSource_congr (source : String) : scopeSource ids source = scopeSource others source := by
  have components : ∀ text, scopeComponents ids text = scopeComponents others text := fun text => by
    simp only [scopeComponents, same]
  simp only [scopeSource, components]

/-- The rules see of a table which names it has. -/
theorem diagnose_congr (file : String) (source : List Char) :
    diagnose ids file source = diagnose others file source := by
  have lacks : ∀ tag, Tag.lacksInstance ids tag = Tag.lacksInstance others tag := fun tag => by
    simp only [Tag.lacksInstance, InstanceIds.contains, same]
  have faults : ∀ found, Tag.faults ids found = Tag.faults others found := fun found => by
    rw [Tag.faults, Tag.faults, Tag.commonFaults, Tag.commonFaults, lacks]
  simp only [diagnose, faults]

/-- A source is preprocessed alike with tables that have the same ids under the same names. -/
theorem preprocess_congr (options : PreprocessOptions) (source : String) :
    preprocess ids options source = preprocess others options source := by
  simp only [preprocess, diagnose_congr same, scopeSource_congr same]

end Tables

/-- Sources that agree one by one have the same outcomes. -/
theorem preprocessBatch_congr (options : PreprocessOptions) {inputs others : List PreprocessInput}
    (agree : List.Forall₂ PreprocessInput.Agrees inputs others) :
    preprocessBatch options inputs = preprocessBatch options others := by
  induction agree with
  | nil => rfl
  | @cons input other _ _ first _ inductionHypothesis =>
    have alike : input.run options = other.run options := by
      rw [PreprocessInput.run, PreprocessInput.run, first.filePath, first.code,
        preprocess_congr first.instanceIds]
    rw [preprocessBatch, List.map_cons, alike]
    exact congrArg (_ :: ·) inductionHypothesis

namespace Service

variable {ids : InstanceIds} {options : PreprocessOptions} {inputs : List PreprocessInput}
  {idsJson optionsJson : Json} {items : List Json}

/-- The text of an object is not blank, so no default stands in for what it gives. -/
theorem readOrDefault_compact {α : Type} (ofJson? : Json → Option α) (default : α)
    (refusal : Refusal) {members : List (String × Json)} {value : α}
    (plain : (Json.object members).isPlain = true)
    (read : ofJson? (.object members) = some value) :
    readOrDefault ofJson? default refusal (Json.object members).compact = .ok value := by
  have solid : (Json.object members).compact.toList.all Text.isUnicodeBlank = false := by
    have brace : Text.isUnicodeBlank '{' = false := by decide
    rw [Json.compact, String.toList_ofList, Json.write, List.cons_append, List.all_cons, brace,
      Bool.false_and]
  rw [readOrDefault, solid, Json.read_compact plain, Option.bind_eq_bind, Option.bind_some, read]
  rfl

/-- An encoded table is read with the same ids under the same names. -/
theorem readInstanceIds_compact (encoding : ids.Encoding idsJson) :
    ∃ others, readInstanceIds idsJson.compact = .ok others ∧
      ∀ name, others.get? name = ids.get? name := by
  obtain ⟨others, read, same⟩ := encoding.ofJson?
  have plain := encoding.isPlain
  obtain ⟨entries, _, rfl⟩ := encoding
  exact ⟨others, readOrDefault_compact _ _ _ plain read, same⟩

/-- Encoded options are read as they are. -/
theorem readOptions_compact (encoding : options.Encoding optionsJson) :
    readOptions optionsJson.compact = .ok options := by
  have read := encoding.ofJson?
  have plain := encoding.isPlain
  obtain ⟨members, _, rfl⟩ := encoding
  exact readOrDefault_compact _ _ _ plain read

/-- Encoded sources are read one by one. -/
theorem mapM_ofJson? (encodings : List.Forall₂ PreprocessInput.Encoding inputs items) :
    ∃ others, items.mapM PreprocessInput.ofJson? = some others ∧
      List.Forall₂ PreprocessInput.Agrees others inputs := by
  induction encodings with
  | nil => exact ⟨[], rfl, .nil⟩
  | cons encoding _ inductionHypothesis =>
    obtain ⟨other, read, agrees⟩ := encoding.ofJson?
    obtain ⟨others, readOthers, agree⟩ := inductionHypothesis
    refine ⟨other :: others, ?_, .cons agrees agree⟩
    rw [List.mapM_cons, read, readOthers]
    rfl

/-- A list of encoded sources is plain. -/
theorem arePlain_of_encodings (encodings : List.Forall₂ PreprocessInput.Encoding inputs items) :
    (Json.array items).isPlain = true := by
  show Json.arePlain items = true
  induction encodings with
  | nil => rfl
  | cons encoding _ inductionHypothesis =>
    exact Bool.and_eq_true_iff.mpr ⟨encoding.isPlain, inductionHypothesis⟩

/-- A list of encoded sources is read with the same outcomes. -/
theorem readInputs_compact (encodings : List.Forall₂ PreprocessInput.Encoding inputs items)
    (options : PreprocessOptions) :
    ∃ others, readInputs (Json.array items).compact = .ok others ∧
      ScopedMarkup.preprocessBatch options others = ScopedMarkup.preprocessBatch options inputs := by
  obtain ⟨others, read, agree⟩ := mapM_ofJson? encodings
  refine ⟨others, ?_, preprocessBatch_congr options agree⟩
  rw [readInputs, Json.read_compact (arePlain_of_encodings encodings), Option.bind_eq_bind,
    Option.bind_some, Json.list?, read]

/-- Whether a value holds an outcome whole: under the one key `ok` a result, under the one key
`error` a diagnostic, written so that it is read as it is. -/
def Holds : Except Diagnostic PreprocessResult → Json → Prop
  | .ok result, answer =>
    answer = .object [("ok", result.toJson)] ∧
      PreprocessResult.ofJson? result.toJson = some result
  | .error diagnostic, answer =>
    answer = .object [("error", diagnostic.toJson)] ∧
      Diagnostic.ofJson? diagnostic.toJson = some diagnostic

/-- An outcome is held by the value that is written for it. -/
theorem holds_outcomeJson (outcome : Except Diagnostic PreprocessResult) :
    Holds outcome (PreprocessResult.outcomeJson outcome) := by
  cases outcome with
  | ok result => exact ⟨rfl, result.ofJson?_toJson⟩
  | error diagnostic => exact ⟨rfl, diagnostic.ofJson?_toJson⟩

/-- The written outcomes are read as a list that holds them in their order. -/
theorem read_outcomes (outcomes : List (Except Diagnostic PreprocessResult)) :
    ∃ answers, Json.read? (Json.ofList PreprocessResult.outcomeJson outcomes).compact =
        some (.array answers) ∧ List.Forall₂ Holds outcomes answers := by
  have plain : (Json.ofList PreprocessResult.outcomeJson outcomes).isPlain = true := by
    refine Json.arePlain_iff.mpr fun item written => ?_
    obtain ⟨outcome, _, rfl⟩ := List.mem_map.mp written
    exact PreprocessResult.isPlain_outcomeJson outcome
  refine ⟨_, Json.read_compact plain, ?_⟩
  rw [List.forall₂_map_right_iff, List.forall₂_same]
  exact fun outcome _ => holds_outcomeJson outcome

/-- A call with an encoded table scopes as the table does. -/
theorem addAttributesToTags_compact (code : String) (idsGiven : ids.Encoding idsJson) :
    addAttributesToTags code idsJson.compact = .ok (ScopedMarkup.addAttributesToTags ids code) := by
  obtain ⟨others, read, same⟩ := readInstanceIds_compact idsGiven
  rw [addAttributesToTags, read, ScopedMarkup.addAttributesToTags, ← scopeSource_congr same]
  rfl

/-- A call with an encoded table and encoded options has the outcome of the source, where a
diagnostic is a refusal. -/
theorem preprocess_compact (code : String) (idsGiven : ids.Encoding idsJson)
    (optionsGiven : options.Encoding optionsJson) :
    preprocess code idsJson.compact optionsJson.compact =
      (ScopedMarkup.preprocess ids options code).outcome.mapError .rejected := by
  obtain ⟨others, read, same⟩ := readInstanceIds_compact idsGiven
  rw [preprocess, read, readOptions_compact optionsGiven, ← preprocess_congr same]
  dsimp only [bind, Except.bind]
  cases (ScopedMarkup.preprocess others options code).outcome <;> rfl

/-- A call with a list of encoded sources is answered by the text of their outcomes. -/
theorem preprocessBatch_compact (optionsGiven : options.Encoding optionsJson)
    (inputsGiven : List.Forall₂ PreprocessInput.Encoding inputs items) :
    preprocessBatch (Json.array items).compact optionsJson.compact =
      .ok (Json.ofList PreprocessResult.outcomeJson
        (ScopedMarkup.preprocessBatch options inputs)).compact := by
  obtain ⟨others, read, alike⟩ := readInputs_compact inputsGiven options
  rw [preprocessBatch, read, readOptions_compact optionsGiven, ← alike]
  rfl

/-- Calls with encoded arguments are answered as the library answers for the arguments: with the
scoped text; with the scoped source, or with a refusal that says what the diagnostic displays; and,
for several sources, with a text that is read as a list of their outcomes, each with the path of its
own file and each held whole, in the order of the sources. -/
theorem calls_answer_as_library (code : String) (idsGiven : ids.Encoding idsJson)
    (optionsGiven : options.Encoding optionsJson)
    (inputsGiven : List.Forall₂ PreprocessInput.Encoding inputs items) :
    addAttributesToTags code idsJson.compact = .ok (ScopedMarkup.addAttributesToTags ids code) ∧
      (∀ result, (ScopedMarkup.preprocess ids options code).outcome = .ok result →
        preprocess code idsJson.compact optionsJson.compact = .ok result) ∧
      (∀ diagnostic, (ScopedMarkup.preprocess ids options code).outcome = .error diagnostic →
        ∃ refusal, preprocess code idsJson.compact optionsJson.compact = .error refusal ∧
          refusal.message = diagnostic.display) ∧
      ∃ text answers,
        preprocessBatch (Json.array items).compact optionsJson.compact = .ok text ∧
          Json.read? text = some (.array answers) ∧
          List.Forall₂ (fun input answer =>
            Holds (ScopedMarkup.preprocess input.instanceIds
              { options with filePath := input.filePath } input.code).outcome answer)
            inputs answers := by
  have answered := preprocess_compact code idsGiven optionsGiven
  obtain ⟨answers, read, held⟩ := read_outcomes (ScopedMarkup.preprocessBatch options inputs)
  refine ⟨addAttributesToTags_compact code idsGiven, ?_, ?_, ?_⟩
  · intro result accepted
    rw [answered, accepted]
    rfl
  · intro diagnostic rejected
    refine ⟨.rejected diagnostic, ?_, rfl⟩
    rw [answered, rejected]
    rfl
  · exact ⟨_, answers, preprocessBatch_compact optionsGiven inputsGiven, read,
      List.forall₂_map_left_iff.mp held⟩

/-- Strict calls with a table whose entries come in another order and with options whose path holds
a line end. The component has no instance id, so its source is refused; the element of the batch
needs none. -/
theorem calls_answer_here :
    addAttributesToTags "<Foo >" "\x7b\"Icon\":\"i\",\"Card\":\"k\"\x7d" =
        .ok "<Foo dataSveltesheetIds=\x7b` $\x7bsvelteCssRuntimeId\x7d`\x7d >" ∧
      (∃ refusal, preprocess "<Foo >" "\x7b\"Icon\":\"i\",\"Card\":\"k\"\x7d"
          "\x7b\"strict\":true,\"filePath\":\"a\\nb\"\x7d" = .error refusal ∧
        refusal.message = "[SVS005] Component <Foo> has no instance id. (a\nb:1:1)") ∧
      ∃ text answer, preprocessBatch
          "[\x7b\"code\":\"<a>\",\"filePath\":\"f\",\"instanceIds\":\x7b\x7d\x7d]"
          "\x7b\"strict\":true,\"filePath\":\"a\\nb\"\x7d" = .ok text ∧
        Json.read? text = some (.array [answer]) ∧
        Holds (.ok ⟨"<a data-sveltesheet-ids=\x7b`$\x7bsvelteCssRuntimeId\x7d`\x7d>", 1, 0, 0⟩) answer := by
  have table : InstanceIds.Encoding ⟨[("Card", "k"), ("Icon", "i")], by decide⟩
      (.object [("Icon", .string "i"), ("Card", .string "k")]) :=
    ⟨[("Icon", "i"), ("Card", "k")], by decide, rfl⟩
  have record : PreprocessOptions.Encoding ⟨true, "a\nb"⟩
      (.object [("strict", .bool true), ("filePath", .string "a\nb")]) := Json.IsRecord.of_fields _
  have element := PreprocessInput.encoding_toJson ⟨"f", "<a>", .empty⟩
  obtain ⟨added, _, refused, text, answers, answered, read, held⟩ :=
    calls_answer_as_library "<Foo >" table record (.cons element .nil)
  cases held with
  | cons first others =>
    cases others with
    | nil =>
      refine ⟨added.trans (by decide +kernel), ?_, text, _, answered, read, ?_⟩
      · obtain ⟨refusal, same, message⟩ := refused _ rfl
        exact ⟨refusal, same, message.trans (by decide +kernel)⟩
      · exact first

end Service

end ScopedMarkup
