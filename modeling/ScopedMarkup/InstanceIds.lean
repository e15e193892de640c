/-!
# Instance ids of components

Each component that a source uses may be given an instance id under its tag name. A
table holds at most one id per name, in the order in which the names came first; a
name that is given again keeps its place and takes the later id.

Looking a name up, listing the entries and building a table from a list are the whole
interface. A table built from its own entries is itself again.
-/

namespace ScopedMarkup

/-- The entries of a table with the id of `name` set to `id`. -/
def InstanceIds.setEntry (name id : String) : List (String × String) → List (String × String)
  | [] => [(name, id)]
  | (other, otherId) :: rest =>
    if other = name then (name, id) :: rest else (other, otherId) :: setEntry name id rest

/-- Setting an id never adds a name but the one that is set. -/
theorem InstanceIds.mem_names_setEntry {name id tested : String} {entries : List (String × String)} :
    tested ∈ (setEntry name id entries).map (·.1) ↔ tested = name ∨ tested ∈ entries.map (·.1) := by
  induction entries with
  | nil => simp only [setEntry, List.map_cons, List.map_nil, List.mem_singleton, List.not_mem_nil, or_false]
  | cons entry rest inductionHypothesis =>
    obtain ⟨other, otherId⟩ := entry
    rw [setEntry]
    split
    · rename_i same
      simp only [List.map_cons, List.mem_cons, same]
      constructor
      · rintro (equal | later)
        · exact Or.inl equal
        · exact Or.inr (Or.inr later)
      · rintro (equal | equal | later)
        · exact Or.inl equal
        · exact Or.inl equal
        · exact Or.inr later
    · simp only [List.map_cons, List.mem_cons, inductionHypothesis]
      constructor
      · rintro (equal | equal | later)
        · exact Or.inr (Or.inl equal)
        · exact Or.inl equal
        · exact Or.inr (Or.inr later)
      · rintro (equal | equal | later)
        · exact Or.inr (Or.inl equal)
        · exact Or.inl equal
        · exact Or.inr (Or.inr later)

/-- Setting an id keeps the names distinct. -/
theorem InstanceIds.nodup_setEntry {name id : String} {entries : List (String × String)}
    (distinct : (entries.map (·.1)).Nodup) : ((setEntry name id entries).map (·.1)).Nodup := by
  induction entries with
  | nil => exact List.nodup_cons.mpr ⟨List.not_mem_nil, List.nodup_nil⟩
  | cons entry rest inductionHypothesis =>
    obtain ⟨other, otherId⟩ := entry
    obtain ⟨fresh, later⟩ := List.nodup_cons.mp distinct
    rw [setEntry]
    split
    · rename_i same
      subst same
      exact List.nodup_cons.mpr ⟨fresh, later⟩
    · rename_i different
      refine List.nodup_cons.mpr ⟨?_, inductionHypothesis later⟩
      intro present
      rcases mem_names_setEntry.mp present with same | within
      · exact different same
      · exact fresh within

/-- A table from component names to instance ids. -/
structure InstanceIds where
  /-- The entries, in the order in which their names came first. -/
  entries : List (String × String)
  /-- A name has one id. -/
  distinct : (entries.map (·.1)).Nodup
deriving DecidableEq

/-- Where the names are distinct, what stands under a name is what is found there. -/
theorem lookup_eq_some_iff_mem {α : Type} {entries : List (String × α)}
    (distinct : (entries.map (·.1)).Nodup) {name : String} {value : α} :
    entries.lookup name = some value ↔ (name, value) ∈ entries := by
  rw [List.lookup_eq_some_iff]
  constructor
  · rintro ⟨front, back, rfl, _⟩
    exact List.mem_append_right front List.mem_cons_self
  · intro member
    obtain ⟨front, back, rfl⟩ := List.append_of_mem member
    refine ⟨front, back, rfl, ?_⟩
    intro entry early
    rw [List.map_append, List.nodup_append] at distinct
    refine bne_iff_ne.mpr fun same => distinct.2.2 entry.1 (List.mem_map_of_mem early) name ?_ same.symm
    exact List.mem_map.mpr ⟨_, List.mem_cons_self, rfl⟩

namespace InstanceIds

/-- The table without entries. -/
def empty : InstanceIds := ⟨[], List.nodup_nil⟩

/-- The table in which `name` has the id `id`. -/
def set (ids : InstanceIds) (name id : String) : InstanceIds :=
  ⟨setEntry name id ids.entries, nodup_setEntry ids.distinct⟩

/-- The table of a list of entries; of two with one name the later counts. -/
def ofList (entries : List (String × String)) : InstanceIds :=
  entries.foldl (fun ids entry => ids.set entry.1 entry.2) empty

/-- The id of a name. -/
def get? (ids : InstanceIds) (name : String) : Option String := ids.entries.lookup name

/-- Whether a name has an id. -/
def contains (ids : InstanceIds) (name : String) : Bool := (ids.get? name).isSome

@[simp] theorem get?_empty (name : String) : empty.get? name = none := rfl

/-- Looking up what was set last gives what was set; other names keep their ids. -/
theorem get?_set (ids : InstanceIds) (name id tested : String) :
    (ids.set name id).get? tested = if tested = name then some id else ids.get? tested := by
  obtain ⟨entries, distinct⟩ := ids
  show (setEntry name id entries).lookup tested = _
  show _ = if tested = name then some id else entries.lookup tested
  clear distinct
  induction entries with
  | nil =>
    rw [setEntry, List.lookup_cons, List.lookup_nil]
    by_cases same : tested = name
    · rw [if_pos same, beq_iff_eq.mpr same]
    · rw [if_neg same, beq_eq_false_iff_ne.mpr same]
  | cons entry rest inductionHypothesis =>
    obtain ⟨other, otherId⟩ := entry
    rw [setEntry]
    by_cases replaced : other = name
    · rw [if_pos replaced, List.lookup_cons, List.lookup_cons, replaced]
      by_cases same : tested = name
      · rw [if_pos same, beq_iff_eq.mpr same]
      · rw [if_neg same, beq_eq_false_iff_ne.mpr same]
    · rw [if_neg replaced, List.lookup_cons, List.lookup_cons, inductionHypothesis]
      by_cases same : tested = other
      · have different : tested ≠ name := fun equal => replaced (same.symm.trans equal)
        rw [beq_iff_eq.mpr same, if_neg different, if_neg different]
      · rw [beq_eq_false_iff_ne.mpr same]

/-- The entries of a table are the names with their ids. -/
theorem get?_eq_some_iff {ids : InstanceIds} {name id : String} :
    ids.get? name = some id ↔ (name, id) ∈ ids.entries :=
  lookup_eq_some_iff_mem ids.distinct

/-- The order of the entries does not matter to what is looked up. -/
theorem get?_eq_of_perm {ids others : InstanceIds} (same : ids.entries.Perm others.entries)
    (name : String) : ids.get? name = others.get? name :=
  Option.ext fun id => by rw [get?_eq_some_iff, get?_eq_some_iff, same.mem_iff]

/-- A name that has no id yet is added behind the others. -/
theorem setEntry_of_absent {name id : String} {entries : List (String × String)}
    (absent : name ∉ entries.map (·.1)) : setEntry name id entries = entries ++ [(name, id)] := by
  induction entries with
  | nil => rfl
  | cons entry rest inductionHypothesis =>
    obtain ⟨other, otherId⟩ := entry
    rw [List.map_cons, List.mem_cons, not_or] at absent
    rw [setEntry, if_neg (fun same => absent.1 same.symm), inductionHypothesis absent.2,
      List.cons_append]

/-- A table is rebuilt from its own entries. -/
theorem ofList_entries (ids : InstanceIds) : ofList ids.entries = ids := by
  suffices grown : ∀ (remaining : List (String × String)) (built : InstanceIds),
      ((built.entries ++ remaining).map (·.1)).Nodup →
      (remaining.foldl (fun ids entry => ids.set entry.1 entry.2) built).entries =
        built.entries ++ remaining by
    have same := grown ids.entries empty ids.distinct
    obtain ⟨entries, distinct⟩ := ids
    exact InstanceIds.mk.injEq .. ▸ same
  intro remaining
  induction remaining with
  | nil => exact fun built _ => (List.append_nil _).symm
  | cons entry rest inductionHypothesis =>
    intro built distinct
    obtain ⟨name, id⟩ := entry
    have absent : name ∉ built.entries.map (·.1) := by
      rw [List.map_append, List.nodup_append] at distinct
      exact fun present => distinct.2.2 name present name (List.mem_map.mpr ⟨_, List.mem_cons_self, rfl⟩) rfl
    have appended : (built.set name id).entries = built.entries ++ [(name, id)] :=
      setEntry_of_absent absent
    rw [List.foldl_cons, inductionHypothesis _ (by rw [appended, List.append_assoc]; exact distinct),
      appended, List.append_assoc]
    rfl

end InstanceIds

end ScopedMarkup
