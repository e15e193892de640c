/-!
# JSON values

A JSON value as far as records of this library use one. Numbers are natural; texts are
sequences of Unicode characters; the members of an object keep their order and may
repeat a key.

JSON can write values beyond that: other numbers, and strings or keys in which an
escape stands for half a surrogate pair. No record holds such a value, but one may be
passed over under a key that nobody reads, so it is kept as it is written.
-/

namespace ScopedMarkup

/-- A JSON value. -/
inductive Json where
  /-- The value `null`. -/
  | null
  /-- A truth value. -/
  | bool (value : Bool)
  /-- A natural number, written in digits alone. -/
  | natural (value : Nat)
  /-- A text. -/
  | string (text : String)
  /-- A list of values. -/
  | array (items : List Json)
  /-- A list of values under keys. -/
  | object (members : List (String × Json))
  /-- Any other value, as it is written. -/
  | literal (written : String)

namespace Json

/-- The truth value that a value is. -/
def bool? : Json → Option Bool
  | bool value => some value
  | _ => none

/-- The natural number below a limit that a value is. -/
def natural? (limit : Nat) : Json → Option Nat
  | natural value => if value < limit then some value else none
  | _ => none

/-- The 32-bit word that a value is. -/
def word? (value : Json) : Option UInt32 := (value.natural? UInt32.size).map UInt32.ofNat

/-- The byte offset that a value is: a natural number of 64 bits. -/
def offset? (value : Json) : Option Nat := value.natural? UInt64.size

/-- The text that a value is. -/
def string? : Json → Option String
  | string text => some text
  | _ => none

/-- The list that a value is, if each item is something. -/
def list? {α : Type} (item? : Json → Option α) : Json → Option (List α)
  | array items => items.mapM item?
  | _ => none

/-- The members that a value has. -/
def members? : Json → Option (List (String × Json))
  | object members => some members
  | _ => none

/-- The 32-bit word as a value. -/
def ofWord (word : UInt32) : Json := natural word.toNat

/-- A list as a value. -/
def ofList {α : Type} (item : α → Json) (items : List α) : Json := array (items.map item)

/-- A text as a value, or `null` where there is none. -/
def ofOption : Option String → Json
  | some text => string text
  | none => null

/-- The text that a value is, or nothing where it is `null`. -/
def option? : Json → Option (Option String)
  | null => some none
  | string text => some (some text)
  | _ => none

/-- A word is read as it is written. -/
@[simp] theorem word?_ofWord (word : UInt32) : (ofWord word).word? = some word := by
  rw [ofWord, word?, natural?, if_pos word.toNat_lt_size, Option.map_some, UInt32.ofNat_toNat]

/-- An optional text is read as it is written. -/
@[simp] theorem option?_ofOption (text : Option String) : (ofOption text).option? = some text := by
  cases text <;> rfl

/-- What is written item by item is read item by item, if each item is read as it is written. -/
theorem mapM_map_eq_some {α β : Type} {write : α → β} {read? : β → Option α} {items : List α}
    (each : ∀ value ∈ items, read? (write value) = some value) :
    (items.map write).mapM read? = some items := by
  induction items with
  | nil => rfl
  | cons first rest inductionHypothesis =>
    have later := inductionHypothesis fun value member => each value (List.mem_cons_of_mem first member)
    rw [List.map_cons, List.mapM_cons, each first List.mem_cons_self, later]
    rfl

/-- A list is read as it is written, if each of its items is. -/
theorem list?_ofList {α : Type} {item : α → Json} {item? : Json → Option α} {items : List α}
    (each : ∀ value ∈ items, item? (item value) = some value) :
    (ofList item items).list? item? = some items :=
  mapM_map_eq_some each

end Json

end ScopedMarkup
