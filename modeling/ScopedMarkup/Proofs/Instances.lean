import ScopedMarkup.Proofs.Accepted
import ScopedMarkup.Proofs.Sources

/-!
# Components without an instance id

Strict mode asks for the instance ids of the component tags of the scan. The pass over components
does not go by tags: it scopes every opening of a component in the flat text, and one that has no
instance id gets the attribute of the empty id. The openings are those of the tags, tag by tag, for
no name begins in a gap or goes over the end of a tag. In a tag stand its own opening, if it is a
component and its name ends so, and those nested in its name, its values and its groups.

The nested ones are no tags of the scan, and nothing looks for their ids. So in a source without
diagnostics every scoped component has an id exactly if the nested ones do.
-/

namespace ScopedMarkup

namespace Word

/-- The pass over elements neither adds nor takes away an opening of a component. -/
theorem values_scopeElements (text : List Char) :
    ((Opening.pattern .component).split (scopeElements text).text).values =
      ((Opening.pattern .component).split text).values := by
  induction text using Word.induction with
  | last word named => rw [scopeElements_eq, edit_last elementAddition? named]
  | step word next rest named ended inductionHypothesis =>
    rw [scopeElements_step rest named ended, values_step rest named ended, ← inductionHypothesis]
    cases added : elementPart? word next with
    | none => simp only [Option.getD_none, List.append_nil, values_step _ named ended]
    | some addition =>
      obtain ⟨opens, rfl⟩ := elementPart_eq_some added
      have blankEnded : isNameChar ' ' = false := by decide
      have blank : endsOpening ' ' = true := by decide
      have sameEnd : opening? .component word ' ' = opening? .component word next := by
        simp only [opening?, blank, opens]
      have inert : opening? .component elementAttribute.toList next = none := by
        simp [opening?, name_elementAttribute]
      have parts : word ++ (some (' ' :: elementAttribute.toList)).getD [] ++
          next :: (scopeElements rest).text =
            word ++ ' ' :: (elementAttribute.toList ++ next :: (scopeElements rest).text) := by
        simp
      rw [parts, values_step _ named blankEnded, values_step _ elementAttribute_named ended,
        sameEnd, inert]
      rfl

end Word

/-- The openings in a source are those in its tags. -/
theorem Scanned.openings {cut : Split Tag} (scanned : Scanned cut) (kind : TagKind) :
    ((Opening.pattern kind).split (cut.render Tag.text)).values =
      cut.values.flatMap fun tag => ((Opening.pattern kind).split tag.text).values := by
  have startsTags := Opening.pattern_startsTags kind
  rw [(Opening.pattern kind).split_render_of_parts cut Tag.text (startsTags.silent scanned.tail rfl)
    (scanned.silent_gap startsTags fun _ _ => ⟨_, rfl⟩) (scanned.parts_opening kind),
    Split.values_refine]

namespace Tag

/-- The openings of components in a tag, other than its own. -/
def nestedOpenings (tag : Tag) : List Opening :=
  match tag.kind with
  | .element => ((Opening.pattern .component).split tag.text).values
  | .component => ((Opening.pattern .component).split tag.rest).values

/-- The openings of the kind of a tag in it are its own, if its name ends so, and those behind the
name. -/
theorem Stands.values_own {tag : Tag} (stands : tag.Stands []) :
    ((Opening.pattern tag.kind).split tag.text).values =
      (if tag.isOpening = true then [⟨tag.name⟩] else []) ++
        ((Opening.pattern tag.kind).split tag.rest).values := by
  have headNamed : ∀ c ∈ tag.head, isNameChar c = true := by
    intro c member
    rcases List.mem_cons.mp member with rfl | later
    · decide
    · exact stands.named.name_named c later
  have named : Word.name? tag.kind tag.head = some tag.name := by
    have starts := stands.named.starts []
    rw [List.append_nil] at starts
    exact if_pos starts
  have ended := stands.ended
  rw [tag.text_eq_head_append, isOpening]
  cases spelled : tag.rest with
  | nil =>
    rw [List.append_nil, Pattern.values_of_silent _ (Word.silent_last headNamed)]
    rfl
  | cons next others =>
    have nextEnded : isNameChar next = false := ended next (by rw [spelled]; rfl)
    have given : Word.opening? tag.kind tag.head next =
        if Opening.endsBefore (next :: others) = true then some ⟨tag.name⟩ else none := by
      rw [Word.opening?, named]
      rfl
    have bare : Word.opening? tag.kind [] next = none := by
      simp [Word.opening?, Word.name?]
    have behind := @Word.values_step tag.kind [] next others (by simp) nextEnded
    rw [List.nil_append, bare] at behind
    rw [Word.values_step others headNamed nextEnded, behind, given]
    split <;> rfl

/-- The openings of components in a tag are its own, if it has one, and the nested ones. -/
theorem Stands.openings {tag : Tag} (stands : tag.Stands []) :
    ((Opening.pattern .component).split tag.text).values =
      (if tag.kind = .component ∧ tag.isOpening = true then [⟨tag.name⟩] else []) ++
        tag.nestedOpenings := by
  have own := stands.values_own
  cases kind : tag.kind with
  | element => simp [nestedOpenings, kind]
  | component =>
    rw [kind] at own
    simp [own, nestedOpenings, kind]

/-- Nothing is nested in a tag in which no other tag starts. -/
theorem Stands.nestedOpenings_of_single {tag : Tag} (stands : tag.Stands [])
    (single : Text.holdsTagStart (tag.text.drop 1) = false) : tag.nestedOpenings = [] := by
  unfold nestedOpenings
  split
  · rename_i element
    have different : TagKind.component ≠ tag.kind := by simp [element]
    exact Pattern.values_of_silent _
      (Opening.silent_other stands.named.starts_text single different)
  · have within : tag.rest <:+ tag.text.drop 1 := by
      rw [text_eq_head_append]
      exact List.suffix_append tag.name tag.rest
    have free := Text.holdsTagStart_of_suffix within single
    exact Pattern.values_of_silent _ ((Opening.pattern_startsTags .component).silent free rfl)

/-- A component tag without faults has an instance id. -/
theorem contains_of_faults {ids : InstanceIds} {found : Located Tag}
    (none : faults ids found = []) (named : found.value.IsNamed)
    (component : found.value.kind = .component) :
    ids.contains (String.ofList found.value.name) = true := by
  obtain ⟨_, known, _⟩ := rules_of_faults none (named.component_not_exempt component)
  simpa [lacksInstance, component] using known

end Tag

/-- Whether every component that the passes scope in a source has an instance id. -/
def KnowsInstances (ids : InstanceIds) (source : List Char) : Prop :=
  ∀ opening ∈ ((Opening.pattern .component).split (scopeElements source).text).values,
    ids.contains (String.ofList opening.name) = true

instance (ids : InstanceIds) (source : List Char) : Decidable (KnowsInstances ids source) :=
  inferInstanceAs (Decidable (∀ opening ∈ _, _))

/-- The openings of components that are scoped are those in the tags of the scan. -/
theorem mem_openings_iff {source : List Char} {opening : Opening} :
    opening ∈ ((Opening.pattern .component).split (scopeElements source).text).values ↔
      ∃ found ∈ scanTags source,
        opening ∈ ((Opening.pattern .component).split found.value.text).values := by
  have openings := (scanned_split source).openings .component
  have whole : (Tag.pattern.split source).render Tag.text = source := Tag.pattern.render_split source
  rw [whole] at openings
  rw [Word.values_scopeElements, openings, List.mem_flatMap]
  constructor
  · rintro ⟨tag, member, within⟩
    obtain ⟨found, scanned, rfl⟩ := exists_scanned member
    exact ⟨found, scanned, within⟩
  · rintro ⟨found, scanned, within⟩
    exact ⟨found.value, mem_values_of_scanned scanned, within⟩

/-- Diagnosis sees to the tags themselves, so only the nested components are left. -/
theorem knowsInstances_of_nested {ids : InstanceIds} {file : String} {source : List Char}
    (accepted : diagnose ids file source = [])
    (known : ∀ found ∈ scanTags source, ∀ opening ∈ found.value.nestedOpenings,
      ids.contains (String.ofList opening.name) = true) : KnowsInstances ids source := by
  intro opening present
  obtain ⟨found, scanned, within⟩ := mem_openings_iff.mp present
  have stands := stands_of_scanned scanned
  rw [stands.openings] at within
  rcases List.mem_append.mp within with own | nested
  · split at own
    · rename_i opens
      rw [List.mem_singleton.mp own]
      exact Tag.contains_of_faults (faults_of_diagnose accepted found scanned) stands.named opens.1
    · exact absurd own List.not_mem_nil
  · exact known found scanned opening nested

/-- If no tag starts within another, diagnosis sees to all components. -/
theorem knowsInstances_of_single {ids : InstanceIds} {file : String} {source : List Char}
    (accepted : diagnose ids file source = [])
    (single : ∀ found ∈ scanTags source, Text.holdsTagStart (found.value.text.drop 1) = false) :
    KnowsInstances ids source := by
  refine knowsInstances_of_nested accepted fun found scanned opening nested => ?_
  rw [(stands_of_scanned scanned).nestedOpenings_of_single (single found scanned)] at nested
  exact absurd nested List.not_mem_nil

/-- In a source without diagnostics every scoped component has an instance id exactly if those
nested in tags have one: diagnosis sees to the tags themselves, and to nothing else. -/
theorem knowsInstances_iff {ids : InstanceIds} {file : String} {source : List Char}
    (accepted : diagnose ids file source = []) :
    KnowsInstances ids source ↔
      ∀ found ∈ scanTags source, ∀ opening ∈ found.value.nestedOpenings,
        ids.contains (String.ofList opening.name) = true := by
  refine ⟨fun known found scanned opening nested => ?_, knowsInstances_of_nested accepted⟩
  refine known opening (mem_openings_iff.mpr ⟨found, scanned, ?_⟩)
  rw [(stands_of_scanned scanned).openings]
  exact List.mem_append_right _ nested

/-- A component in a quoted value of another one, both with instance ids. -/
theorem knowsInstances_here :
    diagnose ⟨[("Card", "k"), ("Icon", "i")], by decide⟩ "f" "<Card icon='<Icon >' />".toList = [] ∧
      KnowsInstances ⟨[("Card", "k"), ("Icon", "i")], by decide⟩ "<Card icon='<Icon >' />".toList := by
  have accepted : diagnose ⟨[("Card", "k"), ("Icon", "i")], by decide⟩ "f"
      "<Card icon='<Icon >' />".toList = [] := by
    decide +kernel
  exact ⟨accepted, (knowsInstances_iff accepted).mpr (by decide +kernel)⟩

/-- A source without diagnostics in which a component without an instance id is scoped all the
same, with the empty id: it stands in a quoted value, where diagnosis does not look for it. -/
theorem scopes_unknown_instance :
    diagnose .empty "f" "<div title=\"<Foo >\">".toList = [] ∧
      ¬KnowsInstances .empty "<div title=\"<Foo >\">".toList ∧
      Text.contains (componentAttribute "").toList
        (scopeComponents .empty (scopeElements "<div title=\"<Foo >\">".toList).text).text = true := by
  decide +kernel

end ScopedMarkup
