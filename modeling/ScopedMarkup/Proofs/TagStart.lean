import ScopedMarkup.CssTarget.Forwarding
import ScopedMarkup.Opening
import ScopedMarkup.Proofs.Locality
import ScopedMarkup.Tag.Basic

/-!
# Where tags start

Every pattern that reads a tag or a part of one starts at `<` with an ASCII letter behind
it. A text without such a place is silent before whatever follows, unless a `<` at its end
meets a letter. So passes over a source can do something at most where a tag starts.
-/

namespace ScopedMarkup

namespace TagKind

/-- Whether a tag of a kind starts at the head of a text. -/
def starts (kind : TagKind) : List Char → Bool
  | '<' :: c :: _ => kind.isInitial c
  | _ => false

@[simp] theorem starts_open (kind : TagKind) (c : Char) (rest : List Char) :
    kind.starts ('<' :: c :: rest) = kind.isInitial c := rfl

/-- A start is a `<` and an initial. -/
theorem starts_iff {kind : TagKind} {text : List Char} :
    kind.starts text = true ↔ ∃ c rest, text = '<' :: c :: rest ∧ kind.isInitial c = true := by
  constructor
  · intro start
    unfold starts at start
    split at start
    · rename_i c rest
      exact ⟨c, rest, rfl, start⟩
    · simp at start
  · rintro ⟨c, rest, rfl, initial⟩
    exact initial

/-- The initials of all kinds are the ASCII letters. -/
theorem isInitial_iff_isAlpha (c : Char) :
    (∃ kind : TagKind, kind.isInitial c = true) ↔ c.isAlpha = true := by
  have cases : c.isAlpha = true ↔ c.isUpper = true ∨ c.isLower = true :=
    iff_of_eq (Bool.or_eq_true ..)
  rw [cases]
  constructor
  · rintro ⟨kind, initial⟩
    cases kind with
    | element => exact Or.inr initial
    | component => exact Or.inl initial
  · rintro (upper | lower)
    · exact ⟨.component, upper⟩
    · exact ⟨.element, lower⟩

/-- Initials lie in the two ranges of ASCII letters. -/
theorem toNat_of_isInitial {kind : TagKind} {c : Char} (initial : kind.isInitial c = true) :
    (65 ≤ c.toNat ∧ c.toNat ≤ 90) ∨ (97 ≤ c.toNat ∧ c.toNat ≤ 122) := by
  cases kind with
  | element => exact Or.inr (toNat_of_element initial)
  | component => exact Or.inl (toNat_of_component initial)

end TagKind

namespace Text

/-- Whether a `<` with an ASCII letter behind it stands at the head of a text. -/
def startsTag : List Char → Bool
  | '<' :: c :: _ => c.isAlpha
  | _ => false

/-- Whether a `<` with an ASCII letter behind it stands anywhere in a text. -/
def holdsTagStart : List Char → Bool
  | [] => false
  | c :: rest => startsTag (c :: rest) || holdsTagStart rest

theorem startsTag_iff {text : List Char} :
    startsTag text = true ↔ ∃ kind : TagKind, kind.starts text = true := by
  constructor
  · intro start
    unfold startsTag at start
    split at start
    · exact (TagKind.isInitial_iff_isAlpha _).mpr start
    · simp at start
  · rintro ⟨kind, start⟩
    obtain ⟨c, rest, rfl, initial⟩ := TagKind.starts_iff.mp start
    exact (TagKind.isInitial_iff_isAlpha c).mp ⟨kind, initial⟩

/-- A start is held exactly where some final part begins with it. -/
theorem holdsTagStart_iff {text : List Char} :
    holdsTagStart text = true ↔ ∃ inside, inside <:+ text ∧ startsTag inside = true := by
  induction text with
  | nil =>
    constructor
    · intro held
      simp [holdsTagStart] at held
    · rintro ⟨inside, final, start⟩
      rw [List.suffix_nil.mp final] at start
      simp [startsTag] at start
  | cons c rest inductionHypothesis =>
    rw [holdsTagStart, Bool.or_eq_true, inductionHypothesis]
    constructor
    · rintro (here | ⟨inside, final, start⟩)
      · exact ⟨c :: rest, List.suffix_rfl, here⟩
      · exact ⟨inside, final.trans (List.suffix_cons c rest), start⟩
    · rintro ⟨inside, final, start⟩
      rcases List.suffix_cons_iff.mp final with rfl | within
      · exact Or.inl start
      · exact Or.inr ⟨inside, within, start⟩

/-- A text holds no start if it is part of a text that holds none. -/
theorem holdsTagStart_of_suffix {inside text : List Char} (final : inside <:+ text)
    (free : holdsTagStart text = false) : holdsTagStart inside = false := by
  rw [Bool.eq_false_iff] at free ⊢
  intro held
  obtain ⟨inner, within, start⟩ := holdsTagStart_iff.mp held
  exact free (holdsTagStart_iff.mpr ⟨inner, within.trans final, start⟩)

end Text

/-- A text that cannot make a `<` in front of it start a tag: no letter is its head. -/
def Text.headIsNoLetter : List Char → Bool
  | [] => true
  | c :: _ => !c.isAlpha

/-- A text without starts has none at its places before a text with no letter as its head. -/
theorem Text.startsTag_append {inside text behind : List Char} (free : holdsTagStart text = false)
    (final : inside <:+ text) (present : inside ≠ []) (apart : headIsNoLetter behind = true) :
    startsTag (inside ++ behind) = false := by
  have freeInside := holdsTagStart_of_suffix final free
  cases inside with
  | nil => exact absurd rfl present
  | cons first rest =>
    cases rest with
    | nil =>
      cases behind with
      | nil => simp [startsTag]
      | cons next others =>
        by_cases opened : first = '<'
        · subst opened
          simpa [startsTag, headIsNoLetter] using apart
        · simp [startsTag, opened]
    | cons second others =>
      rw [holdsTagStart, Bool.or_eq_false_iff] at freeInside
      by_cases opened : first = '<'
      · subst opened
        simpa [startsTag] using freeInside.1
      · simp [startsTag, opened]

/-- Joined texts without starts have none if no letter is the head of the second. -/
theorem Text.holdsTagStart_append {first second : List Char} (free : holdsTagStart first = false)
    (freeBehind : holdsTagStart second = false) (apart : headIsNoLetter second = true) :
    holdsTagStart (first ++ second) = false := by
  rw [Bool.eq_false_iff]
  intro held
  obtain ⟨inside, final, start⟩ := holdsTagStart_iff.mp held
  rcases suffix_append_iff.mp final with within | ⟨inner, rfl, early⟩
  · rw [Bool.eq_false_iff] at freeBehind
    exact freeBehind (holdsTagStart_iff.mpr ⟨inside, within, start⟩)
  · cases inner with
    | nil =>
      rw [Bool.eq_false_iff] at freeBehind
      exact freeBehind (holdsTagStart_iff.mpr ⟨second, List.suffix_rfl, start⟩)
    | cons c rest =>
      rw [startsTag_append free early (List.cons_ne_nil c rest) apart] at start
      exact absurd start Bool.false_ne_true

/-- The first of two joined texts starts no tag that the joined text does not. -/
theorem Text.holdsTagStart_of_append {first second : List Char}
    (free : holdsTagStart (first ++ second) = false) : holdsTagStart first = false := by
  rw [Bool.eq_false_iff] at free ⊢
  intro held
  obtain ⟨inside, final, start⟩ := holdsTagStart_iff.mp held
  obtain ⟨kind, starts⟩ := startsTag_iff.mp start
  obtain ⟨c, rest, rfl, initial⟩ := TagKind.starts_iff.mp starts
  refine free (holdsTagStart_iff.mpr ⟨'<' :: c :: rest ++ second, ?_,
    startsTag_iff.mpr ⟨kind, initial⟩⟩)
  exact suffix_append_iff.mpr (Or.inr ⟨_, rfl, final⟩)

/-- Where there is no `<`, no tag starts. -/
theorem Text.holdsTagStart_of_absent {text : List Char} (absent : '<' ∉ text) :
    holdsTagStart text = false := by
  rw [Bool.eq_false_iff]
  intro held
  obtain ⟨inside, final, start⟩ := holdsTagStart_iff.mp held
  obtain ⟨kind, starts⟩ := startsTag_iff.mp start
  obtain ⟨c, rest, rfl, _⟩ := TagKind.starts_iff.mp starts
  exact absent (final.subset List.mem_cons_self)

namespace Pattern

universe u
variable {α : Type u}

/-- A pattern that reads nothing but where a tag starts. -/
def StartsTags (pattern : Pattern α) : Prop :=
  ∀ input hit, pattern.read? input = some hit → Text.startsTag input = true

/-- A text without starts is silent before any text with no letter as its head. -/
theorem StartsTags.silent {pattern : Pattern α} (startsTags : pattern.StartsTags)
    {text behind : List Char} (free : Text.holdsTagStart text = false)
    (apart : Text.headIsNoLetter behind = true) : pattern.Silent text behind := by
  intro inside final present
  cases read : pattern.read? (inside ++ behind) with
  | none => rfl
  | some hit =>
    have start := startsTags _ hit read
    rw [Text.startsTag_append free final present apart] at start
    exact absurd start Bool.false_ne_true

end Pattern

/-- Openings are read where tags start. -/
theorem Opening.starts_of_read {kind : TagKind} {input : List Char} {opening : Opening}
    (read : Opening.read? kind input = some opening) : kind.starts input = true := by
  unfold Opening.read? at read
  split at read
  · split at read
    · rename_i both
      exact (Bool.and_eq_true_iff.mp both).1
    · simp at read
  · simp at read

/-- Forwarding tags are read where tags start. -/
theorem ForwardingTag.starts_of_read {kind : TagKind} {input : List Char} {tag : ForwardingTag}
    (read : ForwardingTag.read? kind input = some tag) : kind.starts input = true := by
  unfold ForwardingTag.read? at read
  split at read
  · split at read
    · rename_i initial
      exact initial
    · simp at read
  · simp at read

/-- Tags are read where tags start. -/
theorem Tag.starts_of_read {input : List Char} {tag : Tag} (read : Tag.read? input = some tag) :
    tag.kind.starts input = true := by
  unfold Tag.read? at read
  split at read
  · obtain ⟨kind, initial, rfl⟩ := Option.map_eq_some_iff.mp read
    exact (TagKind.ofInitial?_eq_some_iff _ kind).mp initial
  · simp at read

theorem Opening.pattern_startsTags (kind : TagKind) : (Opening.pattern kind).StartsTags :=
  fun _ _ read => Text.startsTag_iff.mpr ⟨kind, Opening.starts_of_read read⟩

theorem ForwardingTag.pattern_startsTags (kind : TagKind) :
    (ForwardingTag.pattern kind).StartsTags :=
  fun _ _ read => Text.startsTag_iff.mpr ⟨kind, ForwardingTag.starts_of_read read⟩

theorem Tag.pattern_startsTags : Tag.pattern.StartsTags :=
  fun _ tag read => Text.startsTag_iff.mpr ⟨tag.kind, Tag.starts_of_read read⟩

/-- A tag is read wherever one starts. -/
theorem Tag.read_isSome {input : List Char} (start : Text.startsTag input = true) :
    (Tag.read? input).isSome = true := by
  obtain ⟨kind, starts⟩ := Text.startsTag_iff.mp start
  obtain ⟨c, rest, rfl, initial⟩ := TagKind.starts_iff.mp starts
  have known : TagKind.ofInitial? c = some kind := (TagKind.ofInitial?_eq_some_iff c kind).mpr initial
  simp [Tag.read?, known]

end ScopedMarkup
