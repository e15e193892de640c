import ScopedMarkup.Text.Blank

/-!
# Kinds of tags and the characters of their names

The first letter of a tag's name decides what the tag stands for: a lowercase ASCII
letter begins a native element, an uppercase one a component. Nothing else begins a
name. The name goes on to the first script blank, `/` or `>`, so it may hold any
other character, a `<` or a brace included.
-/

namespace ScopedMarkup

/-- What a tag stands for. -/
inductive TagKind where
  /-- A native element. -/
  | element
  /-- A component of the program. -/
  | component
deriving DecidableEq, Repr

namespace TagKind

/-- Whether a name of this kind may begin with a character. -/
def isInitial : TagKind → Char → Bool
  | .element, c => c.isLower
  | .component, c => c.isUpper

/-- The kind of the names that begin with a character. -/
def ofInitial? (c : Char) : Option TagKind :=
  if c.isLower then some .element else if c.isUpper then some .component else none

/-- The word for a kind in records. -/
def word : TagKind → String
  | .element => "element"
  | .component => "component"

/-- The names of elements begin with small letters. -/
theorem toNat_of_element {c : Char} (initial : isInitial .element c = true) :
    97 ≤ c.toNat ∧ c.toNat ≤ 122 := by
  have range : (decide (97 ≤ c.val) && decide (c.val ≤ 122)) = true := initial
  rw [Bool.and_eq_true, decide_eq_true_eq, decide_eq_true_eq] at range
  exact range

/-- The names of components begin with capital letters. -/
theorem toNat_of_component {c : Char} (initial : isInitial .component c = true) :
    65 ≤ c.toNat ∧ c.toNat ≤ 90 := by
  have range : decide (65 ≤ c.val ∧ c.val ≤ 90) = true := initial
  rw [decide_eq_true_eq] at range
  exact range

/-- No character begins names of both kinds. -/
theorem not_isInitial_both (c : Char) :
    (isInitial .element c && isInitial .component c) = false := by
  rw [Bool.eq_false_iff]
  intro both
  rw [Bool.and_eq_true] at both
  have small := toNat_of_element both.1
  have capital := toNat_of_component both.2
  omega

/-- The kind of an initial is the one kind that allows it. -/
theorem ofInitial?_eq_some_iff (c : Char) (kind : TagKind) :
    ofInitial? c = some kind ↔ kind.isInitial c = true := by
  have apart := not_isInitial_both c
  cases kind <;> simp only [isInitial, ofInitial?] at apart ⊢ <;>
    cases lower : c.isLower <;> cases upper : c.isUpper <;> simp_all

end TagKind

/-- Whether a character may stand in a tag's name behind the first letter. -/
def isNameChar (c : Char) : Bool := !(Text.isScriptBlank c || c == '/' || c == '>')

end ScopedMarkup
