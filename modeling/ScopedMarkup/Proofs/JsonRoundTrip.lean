import Mathlib.Data.List.Forall2
import ScopedMarkup.Json.RecordType
import ScopedMarkup.Proofs.JsonRecords

/-!
# Records written and read again

A record of any type that is passed as JSON is read back from the text that is written for it. This
holds of the text that the library writes and of every other in which the keys of the objects and
the entries of tables stand in another order; a table may then be read with its entries in that
order. Offsets are told by words of 64 bits, so a record with a greater one has no text.

Reading forgets what a text may hold besides the record: unknown keys, the form of an array, and
whether a field was left out or given with its default. Hence a text that is written anew is the
same when it is written anew once more, whatever it was at first.
-/

namespace ScopedMarkup

namespace Json

/-- A list is read if its items are read one by one. -/
theorem mapM_eq_some_iff {α β : Type} {read? : α → Option β} {items : List α} {values : List β} :
    items.mapM read? = some values ↔
      List.Forall₂ (fun item value => read? item = some value) items values := by
  induction items generalizing values with
  | nil => cases values <;> simp
  | cons item rest inductionHypothesis =>
    rw [List.mapM_cons, Option.bind_eq_bind, Option.bind_eq_some_iff]
    constructor
    · rintro ⟨first, read, reading⟩
      obtain ⟨others, readOthers, same⟩ := Option.bind_eq_some_iff.mp reading
      obtain rfl := Option.some.inj same
      exact .cons read (inductionHypothesis.mp readOthers)
    · rintro (_ | ⟨read, readOthers⟩)
      exact ⟨_, read, by rw [inductionHypothesis.mpr readOthers]; rfl⟩

/-- An offset is read as it is written, if it is a word of 64 bits. -/
theorem offset?_natural {offset : Nat} (bounded : offset < UInt64.size) :
    (natural offset).offset? = some offset := by
  rw [offset?, natural?, if_pos bounded]

/-- An offset that is read is a word of 64 bits. -/
theorem lt_of_offset? {value : Json} {offset : Nat} (read : value.offset? = some offset) :
    offset < UInt64.size := by
  rw [offset?] at read
  cases value with
  | natural given =>
    rw [natural?, Option.ite_none_right_eq_some] at read
    rw [← Option.some.inj read.2]
    exact read.1
  | _ => simp [natural?] at read

/-- A required field that is read is given by a value. -/
theorem exists_of_required? {α : Type} {read? : Json → Option α} {name : String}
    {fields : List (String × Json)} {value : α}
    (read : required? read? name fields = some value) : ∃ json, read? json = some value := by
  rw [required?] at read
  split at read
  · exact ⟨_, read⟩
  · cases read

end Json

namespace TagKind

/-- A kind is read as it is written. -/
theorem ofJson?_toJson (kind : TagKind) : ofJson? kind.toJson = some kind := by
  cases kind <;> decide

end TagKind

namespace SourceLocation

/-- Whether a value is an encoding of a location. -/
def Encoding (location : SourceLocation) (value : Json) : Prop :=
  Json.IsRecord [("column", .ofWord location.column), ("line", .ofWord location.line)] value

variable {location : SourceLocation} {value : Json}

/-- A location is written as an encoding of it. -/
theorem encoding_toJson (location : SourceLocation) : location.Encoding location.toJson :=
  Json.IsRecord.of_fields _

theorem Encoding.isPlain (encoding : location.Encoding value) : value.isPlain = true :=
  Json.IsRecord.isPlain encoding (by simp [Json.isPlain, Json.ofWord])

/-- A location is read as it is. -/
theorem Encoding.ofJson? (encoding : location.Encoding value) :
    SourceLocation.ofJson? value = some location := by
  obtain ⟨given, fields, found⟩ := encoding.exists_fields declaration (List.Perm.swap _ _ [])
    (by decide)
  simp only [List.forall_mem_cons] at found
  obtain ⟨column, line, _⟩ := found
  rw [SourceLocation.ofJson?, fields]
  simp only [Option.bind_eq_bind, Option.bind_some, Json.required?_of_lookup _ line,
    Json.required?_of_lookup _ column, Json.word?_ofWord]
  rfl

end SourceLocation

namespace SpreadSpan

/-- Whether the offsets are words of 64 bits. -/
def InRange (span : SpreadSpan) : Prop := span.start < UInt64.size ∧ span.stop < UInt64.size

/-- Whether a value is an encoding of the record of a spread. -/
def Encoding (span : SpreadSpan) (value : Json) : Prop :=
  Json.IsRecord [("end", .natural span.stop), ("expression", .string span.expression),
    ("mentionsCssTarget", .bool span.mentionsCssTarget), ("nestedBraces", .bool span.nestedBraces),
    ("start", .natural span.start)] value

variable {span : SpreadSpan} {value : Json}

/-- The record of a spread is written as an encoding of it. -/
theorem encoding_toJson (span : SpreadSpan) : span.Encoding span.toJson :=
  Json.IsRecord.of_fields _

theorem Encoding.isPlain (encoding : span.Encoding value) : value.isPlain = true :=
  Json.IsRecord.isPlain encoding (by simp [Json.isPlain])

/-- The record of a spread is read as it is. -/
theorem Encoding.ofJson? (encoding : span.Encoding value) (inRange : span.InRange) :
    SpreadSpan.ofJson? value = some span := by
  obtain ⟨given, fields, found⟩ := encoding.exists_fields declaration
    (show List.Perm ["end", "expression", "mentionsCssTarget", "nestedBraces", "start"] _ by decide)
    (by decide)
  simp only [List.forall_mem_cons] at found
  obtain ⟨stop, expression, mentionsCssTarget, nestedBraces, start, _⟩ := found
  rw [SpreadSpan.ofJson?, fields]
  simp only [Option.bind_eq_bind, Option.bind_some, Json.required?_of_lookup _ start,
    Json.required?_of_lookup _ stop, Json.required?_of_lookup _ expression,
    Json.required?_of_lookup _ nestedBraces, Json.required?_of_lookup _ mentionsCssTarget,
    Json.offset?_natural inRange.1, Json.offset?_natural inRange.2, Json.string?, Json.bool?]
  rfl

/-- What is read is in range. -/
theorem inRange_of_ofJson? (read : SpreadSpan.ofJson? value = some span) : span.InRange := by
  rw [SpreadSpan.ofJson?] at read
  simp only [Option.bind_eq_bind, Option.bind_eq_some_iff] at read
  obtain ⟨fields, _, start, startRead, stop, stopRead, _, _, _, _, _, _, same⟩ := read
  obtain rfl := Option.some.inj same
  obtain ⟨_, startValue⟩ := Json.exists_of_required? startRead
  obtain ⟨_, stopValue⟩ := Json.exists_of_required? stopRead
  exact ⟨Json.lt_of_offset? startValue, Json.lt_of_offset? stopValue⟩

end SpreadSpan

namespace TagSpan

/-- Whether the offsets, also those of the spreads, are words of 64 bits. -/
def InRange (span : TagSpan) : Prop :=
  span.start < UInt64.size ∧ span.stop < UInt64.size ∧ ∀ spread ∈ span.spreads, spread.InRange

/-- Whether a value is an encoding of the record of a tag. -/
def Encoding (span : TagSpan) (value : Json) : Prop :=
  ∃ location spreads, span.location.Encoding location ∧
    List.Forall₂ SpreadSpan.Encoding span.spreads spreads ∧
      Json.IsRecord [("angleInBraces", .bool span.angleInBraces),
        ("angleInQuotes", .bool span.angleInQuotes), ("closed", .bool span.closed),
        ("end", .natural span.stop), ("kind", span.kind.toJson), ("location", location),
        ("multiline", .bool span.multiline), ("name", .string span.name),
        ("selfClosing", .bool span.selfClosing), ("spreads", .array spreads),
        ("start", .natural span.start)] value

variable {span : TagSpan} {value : Json}

/-- The record of a tag is written as an encoding of it. -/
theorem encoding_toJson (span : TagSpan) : span.Encoding span.toJson := by
  refine ⟨span.location.toJson, span.spreads.map SpreadSpan.toJson,
    span.location.encoding_toJson, ?_, Json.IsRecord.of_fields _⟩
  exact List.forall₂_map_right_iff.mpr
    (List.forall₂_same.mpr fun spread _ => spread.encoding_toJson)

theorem Encoding.isPlain (encoding : span.Encoding value) : value.isPlain = true := by
  obtain ⟨location, spreads, located, listed, record⟩ := encoding
  have places := located.isPlain
  have items : Json.arePlain spreads = true := by
    have each := listed.flip.imp fun item (spread : SpreadSpan) (written : spread.Encoding item) =>
      And.intro written.isPlain written
    exact Json.arePlain_iff.mpr ((List.forall₂_and_left _ _).mp each).1
  exact record.isPlain (by simp [Json.isPlain, TagKind.toJson, places, items])

/-- The record of a tag is read as it is. -/
theorem Encoding.ofJson? (encoding : span.Encoding value) (inRange : span.InRange) :
    TagSpan.ofJson? value = some span := by
  obtain ⟨locationJson, spreadsJson, located, listed, record⟩ := encoding
  obtain ⟨startRange, stopRange, spreadsRange⟩ := inRange
  have locationRead := located.ofJson?
  have spreadsRead : (Json.array spreadsJson).list? SpreadSpan.ofJson? = some span.spreads := by
    refine Json.mapM_eq_some_iff.mpr ?_
    refine (((List.forall₂_and_left _ _).mpr ⟨spreadsRange, listed⟩).imp ?_).flip
    rintro spread item ⟨spreadRange, spreadEncoding⟩
    exact spreadEncoding.ofJson? spreadRange
  obtain ⟨given, fields, found⟩ := record.exists_fields declaration
    (show List.Perm ["angleInBraces", "angleInQuotes", "closed", "end", "kind", "location",
      "multiline", "name", "selfClosing", "spreads", "start"] _ by decide)
    (by decide)
  simp only [List.forall_mem_cons] at found
  obtain ⟨angleInBraces, angleInQuotes, closed, stop, kind, location, multiline, name, selfClosing,
    spreads, start, _⟩ := found
  rw [TagSpan.ofJson?, fields]
  simp only [Option.bind_eq_bind, Option.bind_some, Json.required?_of_lookup _ name,
    Json.required?_of_lookup _ kind, Json.required?_of_lookup _ start,
    Json.required?_of_lookup _ stop, Json.required?_of_lookup _ location,
    Json.required?_of_lookup _ closed, Json.required?_of_lookup _ selfClosing,
    Json.required?_of_lookup _ multiline, Json.required?_of_lookup _ angleInBraces,
    Json.required?_of_lookup _ angleInQuotes, Json.required?_of_lookup _ spreads,
    TagKind.ofJson?_toJson, Json.offset?_natural startRange, Json.offset?_natural stopRange,
    locationRead, spreadsRead, Json.string?, Json.bool?]
  rfl

/-- What is read is in range. -/
theorem inRange_of_ofJson? (read : TagSpan.ofJson? value = some span) : span.InRange := by
  rw [TagSpan.ofJson?] at read
  simp only [Option.bind_eq_bind, Option.bind_eq_some_iff] at read
  obtain ⟨fields, _, _, _, _, _, start, startRead, stop, stopRead, _, _, _, _, _, _, _, _, _, _,
    _, _, spreads, spreadsRead, same⟩ := read
  obtain rfl := Option.some.inj same
  obtain ⟨_, startValue⟩ := Json.exists_of_required? startRead
  obtain ⟨_, stopValue⟩ := Json.exists_of_required? stopRead
  obtain ⟨spreadsJson, spreadsValue⟩ := Json.exists_of_required? spreadsRead
  refine ⟨Json.lt_of_offset? startValue, Json.lt_of_offset? stopValue, ?_⟩
  cases spreadsJson with
  | array items =>
    have each := (Json.mapM_eq_some_iff.mp spreadsValue).flip.imp
      fun spread item (read : SpreadSpan.ofJson? item = some spread) =>
        And.intro (SpreadSpan.inRange_of_ofJson? read) read
    exact ((List.forall₂_and_left _ _).mp each).1
  | _ => exact nomatch spreadsValue

end TagSpan

namespace RecordType

/-- Whether the offsets in a record are words of 64 bits. -/
def InRange : (type : RecordType) → type.Value → Prop
  | spread, span => span.InRange
  | tag, span => span.InRange
  | _, _ => True

/-- Whether a value is an encoding of a record, with its keys in whatever order. -/
def Encodes : (type : RecordType) → type.Value → Json → Prop
  | options, value => value.Encoding
  | input, value => value.Encoding
  | result, value => value.Encoding
  | error, value => value.Encoding
  | location, value => value.Encoding
  | kind, value => (· = value.toJson)
  | spread, value => value.Encoding
  | tag, value => value.Encoding

/-- Whether two records are one, tables being compared by the ids under the names. -/
def Same : (type : RecordType) → type.Value → type.Value → Prop
  | input => PreprocessInput.Agrees
  | _ => Eq

/-- How the records of a type are read from what is written for them. -/
structure RoundTrips (type : RecordType) : Prop where
  /-- What the library writes is read as the record itself. -/
  own : ∀ value, type.InRange value → type.read? (type.write value) = some value
  /-- Every other encoding is read as the same record. -/
  encoded : ∀ value, type.InRange value → ∀ json, type.Encodes value json →
    ∃ other, type.read? json.compact = some other ∧ type.Same other value
  /-- A text that is written anew stands for the record it stood for, and is written anew as it
  is. -/
  recoded : ∀ text written, type.recode? text = some written →
    type.read? written = type.read? text ∧ type.recode? written = some written

variable {type : RecordType} {value : type.Value} {json : Json}

/-- What the library writes is an encoding. -/
theorem encodes_toJson (type : RecordType) (value : type.Value) :
    type.Encodes value (type.toJson value) := by
  cases type with
  | options => exact PreprocessOptions.encoding_toJson value
  | input => exact PreprocessInput.encoding_toJson value
  | result => exact PreprocessResult.encoding_toJson value
  | error => exact Diagnostic.encoding_toJson value
  | location => exact SourceLocation.encoding_toJson value
  | kind => rfl
  | spread => exact SpreadSpan.encoding_toJson value
  | tag => exact TagSpan.encoding_toJson value

/-- Encodings are plain. -/
theorem isPlain_of_encodes (encodes : type.Encodes value json) : json.isPlain = true := by
  cases type with
  | options => exact PreprocessOptions.Encoding.isPlain encodes
  | input => exact PreprocessInput.Encoding.isPlain encodes
  | result => exact PreprocessResult.Encoding.isPlain encodes
  | error => exact Diagnostic.Encoding.isPlain encodes
  | location => exact SourceLocation.Encoding.isPlain encodes
  | kind =>
    obtain rfl : json = TagKind.toJson value := encodes
    rfl
  | spread => exact SpreadSpan.Encoding.isPlain encodes
  | tag => exact TagSpan.Encoding.isPlain encodes

/-- An encoding is read as the same record. -/
theorem ofJson?_of_encodes (encodes : type.Encodes value json) (inRange : type.InRange value) :
    ∃ other, type.ofJson? json = some other ∧ type.Same other value := by
  cases type with
  | options => exact ⟨value, PreprocessOptions.Encoding.ofJson? encodes, rfl⟩
  | input => exact PreprocessInput.Encoding.ofJson? encodes
  | result => exact ⟨value, PreprocessResult.Encoding.ofJson? encodes, rfl⟩
  | error => exact ⟨value, Diagnostic.Encoding.ofJson? encodes, rfl⟩
  | location => exact ⟨value, SourceLocation.Encoding.ofJson? encodes, rfl⟩
  | kind =>
    obtain rfl : json = TagKind.toJson value := encodes
    exact ⟨value, TagKind.ofJson?_toJson value, rfl⟩
  | spread => exact ⟨value, SpreadSpan.Encoding.ofJson? encodes inRange, rfl⟩
  | tag => exact ⟨value, TagSpan.Encoding.ofJson? encodes inRange, rfl⟩

/-- What the library writes is read as the record itself, the order of a table included. -/
theorem ofJson?_toJson (inRange : type.InRange value) :
    type.ofJson? (type.toJson value) = some value := by
  have encodes := type.encodes_toJson value
  cases type with
  | input => exact PreprocessInput.ofJson?_toJson value
  | options | result | error | location | kind | spread | tag =>
    obtain ⟨other, read, same⟩ := ofJson?_of_encodes encodes inRange
    rwa [show other = value from same] at read

/-- What is read is in range. -/
theorem inRange_of_ofJson? (read : type.ofJson? json = some value) : type.InRange value := by
  cases type with
  | spread => exact SpreadSpan.inRange_of_ofJson? read
  | tag => exact TagSpan.inRange_of_ofJson? read
  | options | input | result | error | location | kind => trivial

/-- The text of an encoding is read as the encoding. -/
theorem read?_compact (encodes : type.Encodes value json) :
    type.read? json.compact = type.ofJson? json := by
  rw [read?, Json.read_compact (isPlain_of_encodes encodes)]
  rfl

end RecordType

/-- Records of every type are read back from what is written for them, by the library or with keys
and entries in another order. A text that stands for a record is written anew in one form, whatever
form it had. -/
theorem record_round_trip (type : RecordType) : type.RoundTrips := by
  have own : ∀ value, type.InRange value → type.read? (type.write value) = some value := by
    intro value inRange
    rw [RecordType.write, RecordType.read?_compact (type.encodes_toJson value),
      RecordType.ofJson?_toJson inRange]
  refine ⟨own, ?_, ?_⟩
  · intro value inRange json encodes
    rw [RecordType.read?_compact encodes]
    exact RecordType.ofJson?_of_encodes encodes inRange
  · intro text written recoded
    obtain ⟨value, read, rfl⟩ := Option.map_eq_some_iff.mp recoded
    obtain ⟨json, _, decoded⟩ := Option.bind_eq_some_iff.mp read
    have again := own value (RecordType.inRange_of_ofJson? decoded)
    refine ⟨again.trans read.symm, ?_⟩
    rw [RecordType.recode?, again, Option.map_some]

/-- A diagnostic in the form of an array, with an escaped character and without a context. -/
theorem record_round_trip_array :
    ∃ written, RecordType.recode? .error
        "[\"SVS005\", \"\", \"\\ud83d\\ude00\", \"\", \"f\", 4294967295, 0, null, [\"a\"]]" =
          some written ∧
      RecordType.recode? .error written = some written := by
  have accepted : (RecordType.recode? .error
      "[\"SVS005\", \"\", \"\\ud83d\\ude00\", \"\", \"f\", 4294967295, 0, null, [\"a\"]]").isSome =
        true := by
    decide +kernel
  obtain ⟨written, recoded⟩ := Option.isSome_iff_exists.mp accepted
  exact ⟨written, recoded, ((record_round_trip .error).recoded _ _ recoded).2⟩

end ScopedMarkup
