import ScopedMarkup.Json.Basic

/-!
# Fields of records

A record is given either by an object, whose keys name its fields, or by an array,
which holds the fields in the order in which they are declared. Both are brought into
one form, a list of named values, before any field is read.

In an object unknown keys are passed over and a known key may not be repeated. In an
array there may be no more items than fields, and so many of the first fields as the
declaration says must be there. Which absent field has a default is for the reader of
the record to say.
-/

namespace ScopedMarkup.Json

/-- The declaration of a record's fields. -/
structure Declaration where
  /-- The names of the fields in order. -/
  names : List String
  /-- How many of them an array must give. -/
  positional : Nat

/-- The values given for the fields of a record, each with the name of its field. -/
def fields? (declaration : Declaration) : Json → Option (List (String × Json))
  | array items =>
    if declaration.positional ≤ items.length ∧ items.length ≤ declaration.names.length then
      some (declaration.names.zip items)
    else none
  | object members =>
    let known := members.filter fun member => declaration.names.contains member.1
    if (known.map (·.1)).Nodup then some known else none
  | _ => none

/-- The field of a name, which must be given. -/
def required? {α : Type} (read? : Json → Option α) (name : String)
    (fields : List (String × Json)) : Option α :=
  match fields.lookup name with
  | some value => read? value
  | none => none

/-- The field of a name, or a default where it is not given. -/
def optional? {α : Type} (read? : Json → Option α) (default : α) (name : String)
    (fields : List (String × Json)) : Option α :=
  match fields.lookup name with
  | some value => read? value
  | none => some default

end ScopedMarkup.Json
