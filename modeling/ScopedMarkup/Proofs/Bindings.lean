import ScopedMarkup.Proofs.Accepted
import ScopedMarkup.Proofs.Sources

/-!
# The heads of scoped tags

Scoping puts an attribute directly behind the name. The attribute opens no spread, for a
backtick or a letter stands behind each of its braces. But it holds a `}`, so it may complete
a spread that the name opens: a name may hold `{...` as it may hold anything but blanks,
slashes and `>`. If `cssTarget` stands in the rest of such a name, the spread goes over the
name's end and removal tears the name. If it does not, the attribute of a forwarding tag
leaves no flat spread in its head, since nothing up to its first `}` mentions `cssTarget`.
-/

namespace ScopedMarkup

/-- No instance id holds any of some characters. -/
def InstanceIds.Avoids (ids : InstanceIds) (marks : List Char) : Prop :=
  ∀ entry ∈ ids.entries, ∀ c ∈ entry.2.toList, c ∉ marks

instance (ids : InstanceIds) (marks : List Char) : Decidable (ids.Avoids marks) :=
  decidable_of_iff (ids.entries.all (fun entry => entry.2.toList.all (fun c => c ∉ marks)) = true)
    (by simp only [InstanceIds.Avoids, List.all_eq_true, decide_eq_true_eq])

/-- What is looked up holds none of them either. -/
theorem InstanceIds.Avoids.getD {ids : InstanceIds} {marks : List Char} (avoids : ids.Avoids marks)
    (name : String) : ∀ c ∈ ((ids.get? name).getD "").toList, c ∉ marks := by
  intro c member
  cases found : ids.get? name with
  | none =>
    rw [found] at member
    simp at member
  | some id =>
    rw [found] at member
    obtain ⟨front, back, spelled, _⟩ := List.lookup_eq_some_iff.mp found
    exact avoids (name, id) (by rw [spelled]; simp) c member

namespace CssSpread

/-- Whether a brace in front of a text cannot open a spread, whatever stands behind the text. -/
def shuts : List Char → Bool
  | [] => false
  | next :: _ => !Text.isScriptBlank next && next != '.'

/-- Whether no brace of a text can open a spread. -/
def blocked : List Char → Bool
  | [] => true
  | c :: rest => (c != '{' || shuts rest) && blocked rest

/-- What is blocked opens no spread. -/
theorem not_opens_of_blocked {text : List Char} (shut : blocked text = true) {inside : List Char}
    (final : inside <:+ text) (present : inside ≠ []) (behind : List Char) :
    ¬Opens (inside ++ behind) := by
  induction text with
  | nil => exact absurd (List.suffix_nil.mp final) present
  | cons c rest inductionHypothesis =>
    rw [blocked, Bool.and_eq_true] at shut
    rcases List.suffix_cons_iff.mp final with rfl | within
    · rintro ⟨blanks, more, joined, blank⟩
      obtain ⟨rfl, behindBrace⟩ := List.cons.inj joined
      cases rest with
      | nil => simp [shuts] at shut
      | cons next others =>
        have stops : Text.isScriptBlank next = false ∧ next ≠ '.' := by
          simpa [shuts] using shut.1
        cases blanks with
        | nil => exact stops.2 (List.cons.inj behindBrace).1
        | cons first more =>
          have same : next = first := (List.cons.inj behindBrace).1
          rw [same, blank first List.mem_cons_self] at stops
          simp at stops
    · exact inductionHypothesis shut.2 within

/-- No flat spread is read in what is blocked. -/
theorem silent_of_blocked {text : List Char} (shut : blocked text = true) (behind : List Char) :
    pattern.Silent text behind := by
  intro inside final present
  cases read : pattern.read? (inside ++ behind) with
  | none => rfl
  | some spread => exact absurd (opens_of_read read) (not_opens_of_blocked shut final present behind)

theorem blocked_append {first second : List Char} (shut : blocked first = true)
    (shutBehind : blocked second = true) : blocked (first ++ second) = true := by
  induction first with
  | nil => exact shutBehind
  | cons c rest inductionHypothesis =>
    rw [blocked, Bool.and_eq_true] at shut
    rw [List.cons_append, blocked, inductionHypothesis shut.2, Bool.and_true]
    cases rest with
    | nil =>
      have noBrace : c ≠ '{' := by simpa [shuts] using shut.1
      simp [noBrace]
    | cons next others => exact shut.1

theorem blocked_of_absent {text : List Char} (absent : '{' ∉ text) : blocked text = true := by
  induction text with
  | nil => rfl
  | cons c rest inductionHypothesis =>
    rw [List.mem_cons, not_or] at absent
    have noBrace : c ≠ '{' := fun same => absent.1 same.symm
    rw [blocked, inductionHypothesis absent.2]
    simp [noBrace]

/-- One blank between the brace and such a text opens nothing either. -/
theorem not_opens_blank {text : List Char} (shut : shuts text = true) :
    ¬Opens ('{' :: ' ' :: text) := by
  rintro ⟨blanks, more, joined, blank⟩
  obtain ⟨_, behindBrace⟩ := List.cons.inj joined
  cases text with
  | nil => simp [shuts] at shut
  | cons next rest =>
    simp only [shuts, Bool.and_eq_true, Bool.not_eq_true', bne_iff_ne] at shut
    rcases blanks with _ | ⟨first, _ | ⟨second, blanks⟩⟩
    · exact absurd (List.cons.inj behindBrace).1 (by decide)
    · exact shut.2 (List.cons.inj (List.cons.inj behindBrace).2).1
    · have same : next = second := (List.cons.inj (List.cons.inj behindBrace).2).1
      rw [same, blank second (by simp)] at shut
      simp at shut

/-- A spread that is opened without blanks is read up to the first `}` if it mentions
`cssTarget` there. -/
theorem read_open {body behind : List Char} (free : '}' ∉ body) :
    read? ('{' :: '.' :: '.' :: '.' :: (body ++ '}' :: behind)) =
      if Text.contains cssTargetName body then some ⟨[], body⟩ else none := by
  have dot : Text.isScriptBlank '.' = false := by decide
  have cut : Text.cutAt? '}' (body ++ '}' :: behind) = some (body, behind) :=
    (Text.cutAt?_eq_some_iff ..).mpr ⟨rfl, free⟩
  simp [read?, dot, cut]

/-- A spread that mentions `cssTarget` and is still open is read up to the next `}`. -/
theorem read_mentioned {body lead behind : List Char} (mentioned : cssTargetName <:+: body)
    (unclosed : '}' ∉ body) (free : '}' ∉ lead) :
    read? ('{' :: '.' :: '.' :: '.' :: body ++ (lead ++ '}' :: behind)) =
      some ⟨[], body ++ lead⟩ := by
  have joined : '{' :: '.' :: '.' :: '.' :: body ++ (lead ++ '}' :: behind) =
      '{' :: '.' :: '.' :: '.' :: ((body ++ lead) ++ '}' :: behind) := by
    simp
  have occurs : Text.contains cssTargetName (body ++ lead) = true :=
    (Text.contains_iff _ _).mpr (mentioned.trans (List.prefix_append _ _).isInfix)
  rw [joined, read_open (by simp [unclosed, free]), occurs, if_pos rfl]

end CssSpread

/-- A text without a character occurs on one side of it. -/
theorem Text.infix_of_absent {wanted first second : List Char} {c : Char} (absent : c ∉ wanted)
    (occurs : wanted <:+: first ++ c :: second) : wanted <:+: first ∨ wanted <:+: second := by
  rcases List.infix_append_iff.mp occurs with early | late | ⟨left, right, rfl, final, initial⟩
  · exact Or.inl early
  · rcases List.infix_cons_iff.mp late with here | within
    · cases wanted with
      | nil => exact Or.inl (List.nil_infix)
      | cons next others =>
        rw [List.prefix_cons_iff] at here
        rcases here with impossible | ⟨rest, same, _⟩
        · simp at impossible
        · rw [(List.cons.inj same).1] at absent
          simp at absent
    · exact Or.inr within
  · cases right with
    | nil => exact Or.inl (by simpa using final.isInfix)
    | cons next others =>
      rcases List.prefix_cons_iff.mp initial with impossible | ⟨rest, same, _⟩
      · simp at impossible
      · rw [(List.cons.inj same).1] at absent
        simp at absent

namespace Tag

variable {tag : Tag} {ids : InstanceIds}

/-- Whether removal tears the name of a tag: the tag gets an attribute, and its name opens a
spread that mentions `cssTarget` and is still open when the name ends. -/
def TearsName (tag : Tag) : Prop :=
  tag.isScoped = true ∧ ∃ before body, tag.name = before ++ '{' :: '.' :: '.' :: '.' :: body ∧
    '}' ∉ body ∧ cssTargetName <:+: body

/-- The characters of an attribute are those of an instance id and some that belong to every
attribute. -/
theorem mem_binding {marks : List Char} (avoids : ids.Avoids marks) {forwarding : Bool} {c : Char}
    (marked : c ∈ marks) (member : c ∈ tag.binding ids forwarding) :
    c ∈ ' ' :: (TagKind.element.attributeOpening ++ TagKind.component.attributeOpening ++
      inheritedIdsEntry ++ interpolation runtimeIdVariable ++ attributeClosing).toList := by
  unfold binding at member
  split at member
  · rcases List.mem_cons.mp member with blank | inAttribute
    · rw [blank]
      exact List.mem_cons_self
    · have apart := avoids.getD (String.ofList tag.name) c
      simp only [scopeAttribute, ownEntries, String.toList_append, List.mem_append] at inAttribute
      simp only [String.toList_append, List.mem_cons, List.mem_append]
      cases kind : tag.kind <;> cases forwarding <;> simp [kind] at inAttribute <;> grind
  · exact absurd member List.not_mem_nil

/-- No angle bracket stands in an attribute if none stands in an instance id. -/
theorem angle_not_mem_binding (avoids : ids.Avoids ['<', '>', '{', '}']) (forwarding : Bool) :
    '<' ∉ tag.binding ids forwarding ∧ '>' ∉ tag.binding ids forwarding := by
  constructor
  · intro member
    exact absurd (mem_binding avoids (by simp) member) (by decide)
  · intro member
    exact absurd (mem_binding avoids (by simp) member) (by decide)

/-- The braces of an attribute open no spread. -/
theorem blocked_binding (avoids : ids.Avoids ['<', '>', '{', '}']) (forwarding : Bool) :
    CssSpread.blocked (tag.binding ids forwarding) = true := by
  have idBlocked : CssSpread.blocked ((ids.get? (String.ofList tag.name)).getD "").toList = true := by
    refine CssSpread.blocked_of_absent fun member => ?_
    exact avoids.getD (String.ofList tag.name) '{' member (by simp)
  have entryBlocked : CssSpread.blocked (if forwarding then inheritedIdsEntry.toList else []) = true := by
    cases forwarding <;> decide
  have ownBlocked : CssSpread.blocked (tag.ownEntries ids) = true := by
    unfold ownEntries
    split
    · decide
    · simp only [String.toList_append]
      refine CssSpread.blocked_append (CssSpread.blocked_append
        (CssSpread.blocked_append idBlocked ?_) ?_) ?_ <;> decide
  have openingBlocked : CssSpread.blocked (' ' :: tag.kind.attributeOpening.toList) = true := by
    cases tag.kind <;> decide
  unfold binding
  split
  · exact CssSpread.blocked_append openingBlocked (CssSpread.blocked_append entryBlocked ownBlocked)
  · rfl

/-- An attribute begins with a letter. -/
theorem shuts_scopeAttribute (ids : InstanceIds) (forwarding : Bool) (behind : List Char) :
    CssSpread.shuts (tag.scopeAttribute ids forwarding ++ behind) = true := by
  rw [scopeAttribute]
  cases tag.kind <;> rfl

/-- An attribute ends with `}`. -/
theorem binding_getLast (gets : tag.isScoped = true) (ids : InstanceIds) (forwarding : Bool) :
    (tag.binding ids forwarding).getLast? = some '}' := by
  rw [binding, if_pos gets, scopeAttribute, ownEntries]
  cases tag.kind <;> simp [attributeClosing, List.getLast?_append, List.getLast?_cons]

/-- So a scoped tag has a `}` before what follows its name. -/
theorem scopedHead_getLast (gets : tag.isScoped = true) (ids : InstanceIds) (forwarding : Bool) :
    (tag.head ++ tag.binding ids forwarding).getLast? = some '}' := by
  rw [List.getLast?_append, binding_getLast gets]
  rfl

/-- What ends a name ends the head. -/
theorem suffix_head_of_name {before inside : List Char} (named : tag.name = before ++ inside) :
    inside <:+ tag.head := by
  rw [head, named]
  exact List.suffix_append ('<' :: before) inside

/-- A flat spread that begins in the head of a tag without faults does not end there. -/
theorem Accepted.brace_not_mem_of_read (accepted : tag.Accepted) {inside behind : List Char}
    {spread : CssSpread} (final : inside <:+ tag.head) (present : inside ≠ [])
    (read : CssSpread.read? (inside ++ behind) = some spread) : '}' ∉ inside := by
  intro closed
  have alone := CssSpread.read_append (CssSpread.read_of_mem read closed) tag.rest
  exact absurd (alone.symm.trans (accepted.head _ final present)) (by simp)

/-- The characters of a head are name characters. -/
theorem Settled.head_named (settled : tag.Settled) : ∀ c ∈ tag.head, isNameChar c = true := by
  intro c member
  rcases List.mem_cons.mp member with rfl | inName
  · decide
  · exact settled.name_named c inName

/-- No `>` stands in a head and its attribute. -/
theorem Settled.angle_not_mem_front (settled : tag.Settled)
    (avoids : ids.Avoids ['<', '>', '{', '}']) (forwarding : Bool) :
    '>' ∉ tag.head ++ tag.binding ids forwarding := by
  intro member
  rcases List.mem_append.mp member with inHead | inBinding
  · exact absurd (settled.head_named '>' inHead) (by decide)
  · exact (angle_not_mem_binding avoids forwarding).2 inBinding

/-- A spread that is opened in a head has its dots there too, for no blank stands in a name. -/
theorem Settled.opens_in_head (settled : tag.Settled) {inside : List Char}
    (final : inside <:+ tag.head) (present : inside ≠ []) {next : Char} {more : List Char}
    (ended : isNameChar next = false) (shut : ¬CssSpread.Opens ('{' :: next :: more))
    (opens : CssSpread.Opens (inside ++ next :: more)) :
    ∃ body, inside = '{' :: '.' :: '.' :: '.' :: body := by
  have named : ∀ c ∈ inside, isNameChar c = true :=
    fun c member => settled.head_named c (final.subset member)
  have undotted : '.' ≠ next := by
    rintro rfl
    exact absurd ended (by decide)
  obtain ⟨first, inner, rfl⟩ := List.exists_cons_of_ne_nil present
  have opensHere := opens
  obtain ⟨blanks, others, joined, blank⟩ := opens
  obtain ⟨rfl, behindBrace⟩ := List.cons.inj joined
  cases inner with
  | nil => exact absurd opensHere shut
  | cons second inner =>
    cases blanks with
    | cons c rest =>
      have same : second = c := (List.cons.inj behindBrace).1
      have isName := named second (by simp)
      rw [isNameChar, same, blank c List.mem_cons_self] at isName
      simp at isName
    | nil =>
      obtain ⟨rfl, behindDot⟩ := List.cons.inj behindBrace
      cases inner with
      | nil => exact absurd (List.cons.inj behindDot).1.symm undotted
      | cons third inner =>
        obtain ⟨rfl, behindDots⟩ := List.cons.inj behindDot
        cases inner with
        | nil => exact absurd (List.cons.inj behindDots).1.symm undotted
        | cons fourth body =>
          obtain ⟨rfl, _⟩ := List.cons.inj behindDots
          exact ⟨body, rfl⟩

/-- If a head is silent alone, a spread that begins there and is completed behind mentions
`cssTarget` in the name or up to the first `}` behind it. -/
theorem Settled.read_in_head (settled : tag.Settled) (accepted : tag.Accepted) {inside : List Char}
    (final : inside <:+ tag.head) (present : inside ≠ []) {lead others : List Char}
    (shut : CssSpread.shuts lead = true) (free : '}' ∉ lead)
    (read : (CssSpread.read? (inside ++ ' ' :: (lead ++ '}' :: others))).isSome = true) :
    ∃ body, inside = '{' :: '.' :: '.' :: '.' :: body ∧ '}' ∉ body ∧
      (cssTargetName <:+: body ∨ cssTargetName <:+: lead) := by
  obtain ⟨spread, read⟩ := Option.isSome_iff_exists.mp read
  have unopened : ¬CssSpread.Opens ('{' :: ' ' :: (lead ++ '}' :: others)) := by
    refine CssSpread.not_opens_blank ?_
    cases lead with
    | nil => simp [CssSpread.shuts] at shut
    | cons next rest => exact shut
  obtain ⟨body, rfl⟩ := settled.opens_in_head final present (by decide) unopened
    (CssSpread.opens_of_read read)
  have unclosed : '}' ∉ body := fun closed =>
    accepted.brace_not_mem_of_read final present read (by simp [closed])
  have whole : '}' ∉ body ++ ' ' :: lead := by
    simp [unclosed, free]
  have spelled : ('{' :: '.' :: '.' :: '.' :: body) ++ ' ' :: (lead ++ '}' :: others) =
      '{' :: '.' :: '.' :: '.' :: ((body ++ ' ' :: lead) ++ '}' :: others) := by
    simp
  rw [spelled, CssSpread.read_open whole] at read
  split at read
  · rename_i mentioned
    exact ⟨body, rfl, unclosed,
      Text.infix_of_absent (by decide) ((Text.contains_iff _ _).mp mentioned)⟩
  · simp at read

/-- In the head of a tag whose name is not torn no spread is read if the text up to the first
`}` does not mention `cssTarget`. -/
theorem Settled.silent_head (settled : tag.Settled) (accepted : tag.Accepted)
    (gets : tag.isScoped = true) (untorn : ¬tag.TearsName) {lead : List Char} (others : List Char)
    (shut : CssSpread.shuts lead = true) (free : '}' ∉ lead)
    (unmentioned : Text.contains cssTargetName lead = false) :
    CssSpread.pattern.Silent tag.head (' ' :: (lead ++ '}' :: others)) := by
  intro inside final present
  cases read : CssSpread.pattern.read? (inside ++ ' ' :: (lead ++ '}' :: others)) with
  | none => rfl
  | some spread =>
    exfalso
    obtain ⟨body, rfl, unclosed, inBody | inLead⟩ := settled.read_in_head accepted final present
      shut free (Option.isSome_iff_exists.mpr ⟨spread, read⟩)
    · refine untorn ⟨gets, ?_⟩
      rcases List.suffix_cons_iff.mp final with impossible | ⟨before, spelled⟩
      · exact absurd (List.cons.inj impossible).1 (by decide)
      · exact ⟨before, body, spelled.symm, unclosed, inBody⟩
    · rw [← Text.contains_iff, unmentioned] at inLead
      simp at inLead

/-- The attribute of a forwarding tag up to its first `}`. -/
theorem binding_forwarding (gets : tag.isScoped = true) (ids : InstanceIds) :
    tag.binding ids true = ' ' :: (tag.kind.attributeOpening.toList ++
      ("$\x7b" ++ inheritedIdsVariable).toList ++ '}' :: ' ' :: tag.ownEntries ids) := by
  rw [binding, if_pos gets, scopeAttribute]
  simp [inheritedIdsEntry, interpolation, String.toList_append]

/-- No flat spread is read in the head of a forwarding tag. -/
theorem Settled.silent_forwarding (settled : tag.Settled) (accepted : tag.Accepted)
    (gets : tag.isScoped = true) (untorn : ¬tag.TearsName) (ids : InstanceIds) (behind : List Char) :
    CssSpread.pattern.Silent tag.head (tag.binding ids true ++ behind) := by
  rw [binding_forwarding gets ids]
  have shut : CssSpread.shuts (tag.kind.attributeOpening.toList ++
      ("$\x7b" ++ inheritedIdsVariable).toList) = true := by
    cases tag.kind <;> decide
  have silent := settled.silent_head accepted gets untorn (' ' :: tag.ownEntries ids ++ behind)
    shut (by cases tag.kind <;> decide) (by cases tag.kind <;> decide)
  simpa using silent

/-- No flat spread is read in the head of a scoped tag whose attribute does not mention
`cssTarget`. -/
theorem Settled.silent_unmentioned (settled : tag.Settled) (accepted : tag.Accepted)
    (gets : tag.isScoped = true) (untorn : ¬tag.TearsName)
    (unmentioned : Text.contains cssTargetName (tag.scopeAttribute ids false) = false)
    (behind : List Char) :
    CssSpread.pattern.Silent tag.head (tag.binding ids false ++ behind) := by
  have closed : '}' ∈ tag.scopeAttribute ids false := by
    have ends := List.mem_of_getLast? (binding_getLast gets ids false)
    rw [binding, if_pos gets] at ends
    simpa using ends
  obtain ⟨lead, others, spelled, free⟩ := List.eq_append_cons_of_mem closed
  have shut : CssSpread.shuts lead = true := by
    have begins := @shuts_scopeAttribute tag ids false []
    rw [List.append_nil, spelled] at begins
    cases lead with
    | nil =>
      rw [scopeAttribute] at spelled
      cases kind : tag.kind <;> rw [kind] at spelled <;>
        exact absurd (List.cons.inj spelled).1 (by decide)
    | cons next more => exact begins
  have absent : Text.contains cssTargetName lead = false := by
    rw [Bool.eq_false_iff, Ne, Text.contains_iff] at unmentioned ⊢
    rw [spelled] at unmentioned
    exact fun occurs => unmentioned (occurs.trans (List.prefix_append lead _).isInfix)
  have silent := settled.silent_head accepted gets untorn (others ++ behind) shut free absent
  rw [binding, if_pos gets, spelled]
  simpa using silent

/-- So none is read in the head of a scoped element. -/
theorem Settled.silent_element (settled : tag.Settled) (accepted : tag.Accepted)
    (gets : tag.isScoped = true) (untorn : ¬tag.TearsName) (element : tag.kind = .element)
    (ids : InstanceIds) (behind : List Char) :
    CssSpread.pattern.Silent tag.head (tag.binding ids false ++ behind) := by
  refine settled.silent_unmentioned accepted gets untorn ?_ behind
  rw [scopeAttribute_element element ids]
  decide

end Tag

end ScopedMarkup
