import ScopedMarkup.Json.Records
import ScopedMarkup.Proofs.JsonText

/-!
# Records read from their fields

An object that gives each field of a record once is read as the record, whatever the order of its
members. So two writers may order the fields of a record, or the entries of a table, as they like:
the record that is read is the same, and the table has the same ids under the same names.

What is said here of a record is said of all its fields at once. A field is found under its name
because the names are distinct, and it is read as it was written.
-/

namespace ScopedMarkup

namespace Json

/-- Values are plain if each of them is. -/
theorem arePlain_iff {items : List Json} :
    arePlain items = true ↔ ∀ item ∈ items, item.isPlain = true := by
  induction items with
  | nil => simp [arePlain]
  | cons item rest inductionHypothesis => simp [arePlain, inductionHypothesis]

/-- Members are plain if each of their values is. -/
theorem havePlain_iff {members : List (String × Json)} :
    havePlain members = true ↔ ∀ member ∈ members, member.2.isPlain = true := by
  induction members with
  | nil => simp [havePlain]
  | cons member rest inductionHypothesis => simp [havePlain, inductionHypothesis]

/-- Whether a value is an object of some fields, in whatever order. -/
def IsRecord (fields : List (String × Json)) (value : Json) : Prop :=
  ∃ members, members.Perm fields ∧ value = object members

namespace IsRecord

variable {fields : List (String × Json)} {value : Json}

/-- Fields in their own order are a record. -/
theorem of_fields (fields : List (String × Json)) : IsRecord fields (object fields) :=
  ⟨fields, List.Perm.refl fields, rfl⟩

/-- A record is plain if its fields are. -/
theorem isPlain (record : IsRecord fields value)
    (plain : ∀ member ∈ fields, member.2.isPlain = true) : value.isPlain = true := by
  obtain ⟨members, same, rfl⟩ := record
  exact havePlain_iff.mpr fun member inMembers => plain member (same.mem_iff.mp inMembers)

/-- Every field of a record is found under its name. -/
theorem exists_fields (record : IsRecord fields value) (declaration : Declaration)
    (named : (fields.map (·.1)).Perm declaration.names) (distinct : declaration.names.Nodup) :
    ∃ given, value.fields? declaration = some given ∧
      ∀ field ∈ fields, given.lookup field.1 = some field.2 := by
  obtain ⟨members, same, rfl⟩ := record
  have names : (members.map (·.1)).Perm declaration.names := (same.map _).trans named
  have unique : (members.map (·.1)).Nodup := names.nodup_iff.mpr distinct
  have known : members.filter (fun member => declaration.names.contains member.1) = members := by
    refine List.filter_eq_self.mpr fun member inMembers => ?_
    exact List.contains_iff_mem.mpr (names.mem_iff.mp (List.mem_map_of_mem inMembers))
  refine ⟨members, ?_, ?_⟩
  · rw [fields?]
    simp only [known, unique, if_true]
  · intro field inFields
    exact (lookup_eq_some_iff_mem unique).mpr (same.mem_iff.mpr inFields)

end IsRecord

/-- A required field that is given is read. -/
theorem required?_of_lookup {α : Type} (read? : Json → Option α) {name : String} {value : Json}
    {fields : List (String × Json)} (found : fields.lookup name = some value) :
    required? read? name fields = read? value := by
  rw [required?, found]

/-- An optional field that is given is read. -/
theorem optional?_of_lookup {α : Type} (read? : Json → Option α) (default : α) {name : String}
    {value : Json} {fields : List (String × Json)} (found : fields.lookup name = some value) :
    optional? read? default name fields = read? value := by
  rw [optional?, found]

end Json

namespace InstanceIds

/-- Whether a value is an encoding of a table: an object of its entries, in whatever order. -/
def Encoding (ids : InstanceIds) (value : Json) : Prop :=
  ∃ entries : List (String × String), entries.Perm ids.entries ∧
    value = .object (entries.map fun (name, id) => (name, .string id))

variable {ids : InstanceIds} {value : Json}

/-- A table is written as an encoding of it, with the entries in their own order. -/
theorem encoding_toJson (ids : InstanceIds) : ids.Encoding ids.toJson :=
  ⟨ids.entries, List.Perm.refl _, rfl⟩

theorem Encoding.isPlain (encoding : ids.Encoding value) : value.isPlain = true := by
  obtain ⟨entries, _, rfl⟩ := encoding
  refine Json.havePlain_iff.mpr fun member inMembers => ?_
  obtain ⟨entry, _, rfl⟩ := List.mem_map.mp inMembers
  rfl

/-- A table is read as it is written. -/
theorem ofJson?_toJson (ids : InstanceIds) : ofJson? ids.toJson = some ids := by
  have read : (ids.entries.map fun entry => (entry.1, Json.string entry.2)).mapM
      (fun member => member.2.string?.map fun text => (member.1, text)) = some ids.entries :=
    Json.mapM_map_eq_some fun entry _ => rfl
  show Option.bind ((ids.entries.map fun entry => (entry.1, Json.string entry.2)).mapM
    fun member => member.2.string?.map fun text => (member.1, text)) _ = _
  rw [read]
  exact congrArg some (ofList_entries ids)

/-- A table is read with the same ids under the same names. -/
theorem Encoding.ofJson? (encoding : ids.Encoding value) :
    ∃ others, InstanceIds.ofJson? value = some others ∧
      ∀ name, others.get? name = ids.get? name := by
  obtain ⟨entries, same, rfl⟩ := encoding
  have distinct : (entries.map (·.1)).Nodup := (same.map _).nodup_iff.mpr ids.distinct
  exact ⟨⟨entries, distinct⟩, ofJson?_toJson ⟨entries, distinct⟩, get?_eq_of_perm same⟩

end InstanceIds

namespace PreprocessOptions

/-- Whether a value is an encoding of options. -/
def Encoding (options : PreprocessOptions) (value : Json) : Prop :=
  Json.IsRecord [("strict", .bool options.strict), ("filePath", .string options.filePath)] value

variable {options : PreprocessOptions} {value : Json}

/-- Options are written as an encoding of them. -/
theorem encoding_toJson (options : PreprocessOptions) : options.Encoding options.toJson :=
  ⟨_, List.Perm.swap _ _ [], rfl⟩

theorem Encoding.isPlain (encoding : options.Encoding value) : value.isPlain = true :=
  Json.IsRecord.isPlain encoding (by simp [Json.isPlain])

/-- Options are read as they are. -/
theorem Encoding.ofJson? (encoding : options.Encoding value) :
    PreprocessOptions.ofJson? value = some options := by
  obtain ⟨given, fields, found⟩ := encoding.exists_fields declaration (List.Perm.refl _) (by decide)
  simp only [List.forall_mem_cons] at found
  obtain ⟨strict, filePath, _⟩ := found
  rw [PreprocessOptions.ofJson?, fields]
  simp only [Option.bind_eq_bind, Option.bind_some, Json.optional?_of_lookup _ _ strict,
    Json.optional?_of_lookup _ _ filePath]
  rfl

end PreprocessOptions

namespace PreprocessInput

/-- Whether a value is an encoding of a source. -/
def Encoding (input : PreprocessInput) (value : Json) : Prop :=
  ∃ ids, input.instanceIds.Encoding ids ∧ Json.IsRecord
    [("filePath", .string input.filePath), ("code", .string input.code), ("instanceIds", ids)] value

/-- Whether two sources differ at most in the order of the entries of their tables. -/
structure Agrees (input other : PreprocessInput) : Prop where
  /-- The path is the same. -/
  filePath : input.filePath = other.filePath
  /-- The text is the same. -/
  code : input.code = other.code
  /-- The same ids stand under the same names. -/
  instanceIds : ∀ name, input.instanceIds.get? name = other.instanceIds.get? name

variable {input : PreprocessInput} {value : Json}

/-- A source is written as an encoding of it. -/
theorem encoding_toJson (input : PreprocessInput) : input.Encoding input.toJson :=
  ⟨input.instanceIds.toJson, input.instanceIds.encoding_toJson, _, List.Perm.swap _ _ _, rfl⟩

theorem Encoding.isPlain (encoding : input.Encoding value) : value.isPlain = true := by
  obtain ⟨ids, table, record⟩ := encoding
  have plain := table.isPlain
  exact record.isPlain (by simp [Json.isPlain, plain])

/-- A source is read with the table that is read. -/
theorem ofJson?_of_record {filePath code : String} {idsJson : Json} {ids : InstanceIds}
    (record : Json.IsRecord
      [("filePath", .string filePath), ("code", .string code), ("instanceIds", idsJson)] value)
    (readIds : InstanceIds.ofJson? idsJson = some ids) :
    ofJson? value = some ⟨filePath, code, ids⟩ := by
  obtain ⟨given, fields, found⟩ := record.exists_fields declaration (List.Perm.refl _) (by decide)
  simp only [List.forall_mem_cons] at found
  obtain ⟨filePath, code, instanceIds, _⟩ := found
  rw [ofJson?, fields]
  simp only [Option.bind_eq_bind, Option.bind_some, Json.required?_of_lookup _ filePath,
    Json.required?_of_lookup _ code, Json.optional?_of_lookup _ _ instanceIds, readIds]
  rfl

/-- A source is read as it is written. -/
theorem ofJson?_toJson (input : PreprocessInput) : ofJson? input.toJson = some input :=
  ofJson?_of_record ⟨_, List.Perm.swap _ _ _, rfl⟩ input.instanceIds.ofJson?_toJson

/-- A source is read as it is. -/
theorem Encoding.ofJson? (encoding : input.Encoding value) :
    ∃ other, PreprocessInput.ofJson? value = some other ∧ other.Agrees input := by
  obtain ⟨idsJson, table, record⟩ := encoding
  obtain ⟨ids, readIds, same⟩ := table.ofJson?
  exact ⟨_, ofJson?_of_record record readIds, ⟨rfl, rfl, same⟩⟩

end PreprocessInput

namespace PreprocessResult

/-- Whether a value is an encoding of a scoped source. -/
def Encoding (result : PreprocessResult) (value : Json) : Prop :=
  Json.IsRecord [("code", .string result.code),
    ("componentsScoped", .ofWord result.componentsScoped),
    ("cssTargetsResolved", .ofWord result.cssTargetsResolved),
    ("tagsScoped", .ofWord result.tagsScoped)] value

variable {result : PreprocessResult} {value : Json}

/-- A scoped source is written as an encoding of it. -/
theorem encoding_toJson (result : PreprocessResult) : result.Encoding result.toJson :=
  Json.IsRecord.of_fields _

theorem Encoding.isPlain (encoding : result.Encoding value) : value.isPlain = true :=
  Json.IsRecord.isPlain encoding (by simp [Json.isPlain, Json.ofWord])

/-- A scoped source is read as it is. -/
theorem Encoding.ofJson? (encoding : result.Encoding value) :
    PreprocessResult.ofJson? value = some result := by
  obtain ⟨given, fields, found⟩ := encoding.exists_fields declaration
    (show List.Perm ["code", "componentsScoped", "cssTargetsResolved", "tagsScoped"] _ by decide)
    (by decide)
  simp only [List.forall_mem_cons] at found
  obtain ⟨code, componentsScoped, cssTargetsResolved, tagsScoped, _⟩ := found
  rw [PreprocessResult.ofJson?, fields]
  simp only [Option.bind_eq_bind, Option.bind_some, Json.required?_of_lookup _ code,
    Json.required?_of_lookup _ componentsScoped, Json.required?_of_lookup _ cssTargetsResolved,
    Json.required?_of_lookup _ tagsScoped, Json.word?_ofWord, Json.string?]
  rfl

/-- A scoped source is read as it is written. -/
theorem ofJson?_toJson (result : PreprocessResult) : ofJson? result.toJson = some result :=
  result.encoding_toJson.ofJson?

end PreprocessResult

namespace Diagnostic

/-- Whether a value is an encoding of a diagnostic. -/
def Encoding (diagnostic : Diagnostic) (value : Json) : Prop :=
  Json.IsRecord [("code", .string diagnostic.code),
    ("column", .ofWord diagnostic.column), ("context", .ofOption diagnostic.context),
    ("errorType", .string diagnostic.errorType), ("file", .string diagnostic.file),
    ("guarantee", .string diagnostic.guarantee), ("hints", .ofList .string diagnostic.hints),
    ("line", .ofWord diagnostic.line), ("message", .string diagnostic.message)] value

variable {diagnostic : Diagnostic} {value : Json}

/-- A diagnostic is written as an encoding of it. -/
theorem encoding_toJson (diagnostic : Diagnostic) : diagnostic.Encoding diagnostic.toJson :=
  Json.IsRecord.of_fields _

theorem Encoding.isPlain (encoding : diagnostic.Encoding value) : value.isPlain = true := by
  have context : (Json.ofOption diagnostic.context).isPlain = true := by
    cases diagnostic.context <;> rfl
  have hints : (Json.ofList .string diagnostic.hints).isPlain = true :=
    Json.arePlain_iff.mpr (by simp [Json.isPlain])
  exact Json.IsRecord.isPlain encoding (by simp [Json.isPlain, Json.ofWord, context, hints])

/-- A diagnostic is read as it is. -/
theorem Encoding.ofJson? (encoding : diagnostic.Encoding value) :
    Diagnostic.ofJson? value = some diagnostic := by
  obtain ⟨given, fields, found⟩ := encoding.exists_fields declaration
    (show List.Perm ["code", "column", "context", "errorType", "file", "guarantee", "hints",
      "line", "message"] _ by decide)
    (by decide)
  simp only [List.forall_mem_cons] at found
  obtain ⟨code, column, context, errorType, file, guarantee, hints, line, message, _⟩ := found
  have hintsRead : (Json.ofList .string diagnostic.hints).list? Json.string? =
      some diagnostic.hints := Json.list?_ofList fun hint _ => rfl
  rw [Diagnostic.ofJson?, fields]
  simp only [Option.bind_eq_bind, Option.bind_some, Json.required?_of_lookup _ code,
    Json.required?_of_lookup _ errorType, Json.required?_of_lookup _ message,
    Json.required?_of_lookup _ guarantee, Json.required?_of_lookup _ file,
    Json.required?_of_lookup _ line, Json.required?_of_lookup _ column,
    Json.optional?_of_lookup _ _ context, Json.required?_of_lookup _ hints, hintsRead,
    Json.option?_ofOption, Json.word?_ofWord, Json.string?]
  rfl

/-- A diagnostic is read as it is written. -/
theorem ofJson?_toJson (diagnostic : Diagnostic) :
    ofJson? diagnostic.toJson = some diagnostic :=
  diagnostic.encoding_toJson.ofJson?

end Diagnostic

/-- The outcome of a source is written without values kept as they were. -/
theorem PreprocessResult.isPlain_outcomeJson (outcome : Except Diagnostic PreprocessResult) :
    (outcomeJson outcome).isPlain = true := by
  cases outcome with
  | ok result => exact Json.havePlain_iff.mpr (by simp [result.encoding_toJson.isPlain])
  | error diagnostic => exact Json.havePlain_iff.mpr (by simp [diagnostic.encoding_toJson.isPlain])

end ScopedMarkup
