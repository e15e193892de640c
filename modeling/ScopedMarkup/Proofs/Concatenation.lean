import ScopedMarkup.Proofs.Placement
import ScopedMarkup.Proofs.Sources

/-!
# Joined sources

Scanning and diagnosis are local. If every tag of the first source is closed and the source does
not end with `<`, putting it in front of a second one changes nothing in the scan of either: the
tags of the second follow those of the first, at moved places, and so do the diagnostics.

Both conditions are about the join. An unclosed tag would go on into the second source, and a `<`
at the end could begin a tag there. Of the closed tags nothing more is asked: they are settled, so
none of them looks at what stands behind it.

A diagnostic tells a line and a column but no offset. Whether it is on the first line of the
second source is told by the place of its tag, or by its own line as long as lines do not wrap.
-/

namespace ScopedMarkup

/-- Where a place that is told by line and column lies once `first` stands before its text. -/
def SourceLocation.behind (first : List Char) (onFirstLine : Bool) (location : SourceLocation) :
    SourceLocation where
  line := location.line + UInt32.ofNat (first.count '\n')
  column :=
    if onFirstLine then location.column + UInt32.ofNat (Text.lastLine first).length
    else location.column

/-- The record of a spread once `first` stands before its text. -/
def SpreadSpan.behind (first : List Char) (span : SpreadSpan) : SpreadSpan :=
  { span with
    start := Text.byteLength first + span.start
    stop := Text.byteLength first + span.stop }

/-- The record of a tag of `second` once `first` stands before that text. -/
def TagSpan.behind (first second : List Char) (span : TagSpan) : TagSpan :=
  { span with
    start := Text.byteLength first + span.start
    stop := Text.byteLength first + span.stop
    location := span.location.behind first (Text.onFirstLine second span.start)
    spreads := span.spreads.map (SpreadSpan.behind first) }

/-- A diagnostic once `first` stands before its text. -/
def Diagnostic.behind (first : List Char) (onFirstLine : Bool) (diagnostic : Diagnostic) :
    Diagnostic :=
  let moved := SourceLocation.behind first onFirstLine ⟨diagnostic.line, diagnostic.column⟩
  { diagnostic with
    line := moved.line
    column := moved.column }

/-- The offset of a place moves by the bytes of the other text. -/
theorem Position.offset_behind (first second : List Char) (position : Position) :
    (position.behind first second).offset = Text.byteLength first + position.offset := rfl

/-- The line and the column of a place move by themselves. -/
theorem Position.location_behind (first second : List Char) (position : Position) :
    (position.behind first second).location =
      position.location.behind first (Text.onFirstLine second position.offset) := rfl

/-- The record of a spread says the same wherever the spread begins. -/
theorem Spread.spanFrom_add (first : List Char) (start : Nat) (spread : Spread) :
    spread.spanFrom (Text.byteLength first + start) = (spread.spanFrom start).behind first := by
  simp only [spanFrom, SpreadSpan.behind, Nat.add_assoc]

/-- The record of a moved tag is the moved record. -/
theorem TagSpan.ofLocated_behind (first second : List Char) (found : Located Tag) :
    ofLocated (found.behind first second) = (ofLocated found).behind first second := by
  have spreads : (found.value.spreadsFrom (Text.byteLength first + found.position.offset)).map
      (fun entry => entry.2.spanFrom entry.1) =
        ((found.value.spreadsFrom found.position.offset).map
          fun entry => entry.2.spanFrom entry.1).map (SpreadSpan.behind first) := by
    rw [found.value.spreadsFrom_add, List.map_map, List.map_map]
    exact List.map_congr_left fun entry _ => entry.2.spanFrom_add first entry.1
  simp only [ofLocated, behind, Located.behind, Position.offset_behind, Position.location_behind,
    spreads, Nat.add_assoc]

/-- The records of a fault move with the tag. -/
theorem Fault.diagnostic_behind (file : String) (first second : List Char) (found : Located Tag)
    (fault : Fault) : fault.diagnostic file (found.behind first second) =
      (fault.diagnostic file found).behind first
        (Text.onFirstLine second found.position.offset) := rfl

namespace Tag

/-- A text that is not just `<` reads a tag at its head with others behind it only if it does so
by itself. -/
theorem read_none_append {c : Char} {rest : List Char} (unread : read? (c :: rest) = none)
    (ended : (c :: rest).getLast? ≠ some '<') (behind : List Char) :
    read? (c :: (rest ++ behind)) = none := by
  rw [Option.eq_none_iff_forall_ne_some]
  intro tag read
  have start := pattern_startsTags _ tag read
  cases rest with
  | nil =>
    have opened : c = '<' := by
      unfold Text.startsTag at start
      split at start
      · rename_i spelled
        exact (List.cons.inj spelled).1
      · simp at start
    exact ended (by simp [opened])
  | cons next others =>
    have alone : Text.startsTag (c :: next :: others) = true := by
      by_cases opened : c = '<'
      · subst opened
        exact start
      · simp [Text.startsTag, opened] at start
    have read := read_isSome alone
    simp [unread] at read

/-- A text whose tags are closed and which does not end with `<` is parted from all texts. -/
theorem parts_of_closed {first : List Char}
    (closed : ∀ tag ∈ (pattern.split first).values, tag.isClosed = true)
    (ended : first.getLast? ≠ some '<') (second : List Char) : pattern.Parts first second := by
  induction first using pattern.induction with
  | nil => exact pattern.parts_nil second
  | skip c rest unread inductionHypothesis =>
    rw [pattern.split_of_read_none c rest unread, Split.values_push] at closed
    have later := inductionHypothesis closed
      (Text.getLast?_ne_of_suffix (List.suffix_cons c rest) ended)
    exact later.cons unread (read_none_append unread ended second)
  | hit tag behind read inductionHypothesis =>
    rw [pattern.split_append tag behind read, Split.values_precede] at closed
    have settled : tag.Settled := settled_of_read read (closed tag List.mem_cons_self)
    have later := inductionHypothesis
      (fun other member => closed other (List.mem_cons_of_mem tag member))
      (Text.getLast?_ne_of_suffix (List.suffix_append _ behind) ended)
    exact later.precede read (settled.read (behind ++ second))

end Tag

/-- The tags of joined sources are the tags of both, those of the second at moved places. -/
theorem scanTags_append {first : List Char}
    (closed : ∀ found ∈ scanTags first, found.value.isClosed = true)
    (ended : first.getLast? ≠ some '<') (second : List Char) :
    scanTags (first ++ second) =
      scanTags first ++ (scanTags second).map (Located.behind first second) := by
  have parts : Tag.pattern.Parts first second := by
    refine Tag.parts_of_closed (fun tag member => ?_) ended second
    obtain ⟨found, scanned, rfl⟩ := exists_scanned member
    exact closed found scanned
  rw [scanTags, parts.locate, Tag.pattern.locate_behind]
  rfl

/-- The diagnostics of joined sources are those of both, with the ones of the second told at the
moved places of their tags. -/
theorem diagnose_append {first : List Char}
    (closed : ∀ found ∈ scanTags first, found.value.isClosed = true)
    (ended : first.getLast? ≠ some '<') (second : List Char) (ids : InstanceIds) (file : String) :
    diagnose ids file (first ++ second) = diagnose ids file first ++
      (scanTags second).flatMap fun found =>
        ((Tag.faults ids found).map (Fault.diagnostic file found)).map
          (Diagnostic.behind first (Text.onFirstLine second found.position.offset)) := by
  rw [diagnose, scanTags_append closed ended, List.flatMap_append, List.flatMap_map]
  refine congrArg (diagnose ids file first ++ ·) (congrArg (List.flatMap · (scanTags second)) ?_)
  funext found
  have same : Tag.faults ids (found.behind first second) = Tag.faults ids found :=
    Tag.faults_at ids found.value _ _
  rw [same, List.map_map]
  exact List.map_congr_left fun fault _ => fault.diagnostic_behind file first second found

/-- As long as lines do not wrap, a tag begins on the first line exactly if its line is one. -/
theorem onFirstLine_eq_line {source : List Char} (few : source.count '\n' < 2 ^ 32)
    {found : Located Tag} (scanned : found ∈ scanTags source) :
    Text.onFirstLine source found.position.offset = (found.position.line == 1) := by
  obtain ⟨before, initial, place⟩ := Pattern.exists_before_of_mem_locate scanned
  have offset : found.position.offset = Text.byteLength before := by
    rw [place, Position.offset_after]
    exact Nat.zero_add _
  have line : found.position.line = 1 + UInt32.ofNat (before.count '\n') := by
    rw [place, Position.after_eq]
    rfl
  have fewer : before.count '\n' < 2 ^ 32 :=
    Nat.lt_of_le_of_lt (initial.sublist.count_le '\n') few
  rw [Bool.eq_iff_iff, offset, Text.onFirstLine_iff initial, line, beq_iff_eq,
    ← List.count_eq_zero]
  constructor
  · intro none
    rw [none]
    rfl
  · intro same
    have size := congrArg UInt32.toNat same
    rw [UInt32.toNat_add, UInt32.toNat_ofNat_of_lt' fewer] at size
    have one : (1 : UInt32).toNat = 1 := rfl
    omega

/-- Scanning and diagnosis of joined sources are those of the parts, with everything in the second
told from where it stands. The diagnostics are given in two ways: by the tags of the second source
for all sources, and by their own lines for those whose lines do not wrap. -/
theorem joined_sources {first : List Char}
    (closed : ∀ found ∈ scanTags first, found.value.isClosed = true)
    (ended : first.getLast? ≠ some '<') (second : List Char) (ids : InstanceIds) (file : String) :
    (scanTags (first ++ second)).map TagSpan.ofLocated =
        (scanTags first).map TagSpan.ofLocated ++
          ((scanTags second).map TagSpan.ofLocated).map (TagSpan.behind first second) ∧
      diagnose ids file (first ++ second) = diagnose ids file first ++
        (scanTags second).flatMap (fun found =>
          ((Tag.faults ids found).map (Fault.diagnostic file found)).map
            (Diagnostic.behind first (Text.onFirstLine second found.position.offset))) ∧
      (second.count '\n' < 2 ^ 32 →
        diagnose ids file (first ++ second) = diagnose ids file first ++
          (diagnose ids file second).map fun diagnostic =>
            diagnostic.behind first (diagnostic.line == 1)) := by
  have diagnosed := diagnose_append closed ended second ids file
  refine ⟨?_, diagnosed, fun few => ?_⟩
  · rw [scanTags_append closed ended, List.map_append, List.map_map, List.map_map]
    refine congrArg (_ ++ ·) (List.map_congr_left fun found _ => ?_)
    exact TagSpan.ofLocated_behind first second found
  · rw [diagnosed, diagnose, diagnose, List.map_flatMap]
    refine congrArg (_ ++ ·) (List.flatMap_congr fun found scanned => ?_)
    rw [onFirstLine_eq_line few scanned, List.map_map, List.map_map]
    rfl

/-- A tag on the first line of the second source goes on in the last line of the first, and one
on its second line keeps its column. -/
theorem joined_sources_here :
    ((scanTags ("<p>\nx".toList ++ " <Foo>\n<Bar />".toList)).map TagSpan.ofLocated).map
        (·.location) = [⟨1, 1⟩, ⟨2, 3⟩, ⟨3, 1⟩] ∧
      (diagnose ⟨[], by decide⟩ "f" ("<p>\nx".toList ++ " <Foo>\n<Bar />".toList)).map
        Diagnostic.brief = ["SVS005@2:3", "SVS005@3:1"] := by
  obtain ⟨scanned, _, diagnosed⟩ := @joined_sources "<p>\nx".toList (by decide +kernel)
    (by decide +kernel) " <Foo>\n<Bar />".toList ⟨[], by decide⟩ "f"
  rw [scanned, diagnosed (by decide +kernel)]
  exact ⟨by decide +kernel, by decide +kernel⟩

end ScopedMarkup
