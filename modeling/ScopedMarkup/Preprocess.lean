import ScopedMarkup.CssTarget.Forwarding
import ScopedMarkup.Diagnostic.Fault
import ScopedMarkup.Opening

/-!
# Preprocessing of sources

A source is scoped in four passes, each over the text that the one before it left:
attributes go on native elements, then on components, and then the elements and the
components that carry a spread are made to forward their parent's ids. This never
fails. Markup that no pass recognises stays as it is.

In strict mode the source is diagnosed first and not scoped at all if anything is
wrong with it: the first diagnostic is the outcome. Every diagnostic is logged, and so
is every source that was scoped. The log is part of the result.
-/

namespace ScopedMarkup

/-- How a source is to be preprocessed. -/
structure PreprocessOptions where
  /-- Whether a diagnostic stands in the way of scoping. -/
  strict : Bool
  /-- The path of the file, as diagnostics and the log name it. -/
  filePath : String
deriving DecidableEq, Repr

/-- The options that hold unless others are given. -/
def PreprocessOptions.default : PreprocessOptions := ⟨false, ""⟩

/-- A source to be preprocessed among others. -/
structure PreprocessInput where
  /-- The path of its file. -/
  filePath : String
  /-- Its text. -/
  code : String
  /-- The instance ids of the components that it uses. -/
  instanceIds : InstanceIds
deriving DecidableEq

/-- A scoped source, with counts of what was done. -/
structure PreprocessResult where
  /-- The text with its attributes. -/
  code : String
  /-- How many elements got their attribute. -/
  tagsScoped : UInt32
  /-- How many components got their attribute. -/
  componentsScoped : UInt32
  /-- How many tags were made to forward their parent's ids. -/
  cssTargetsResolved : UInt32
deriving DecidableEq, Repr

/-- How much a log entry matters. -/
inductive LogLevel where
  /-- For those who look for faults in the program. -/
  | debug
  /-- Something is wrong with the input. -/
  | warn
deriving DecidableEq, Repr

/-- The word for a level. -/
def LogLevel.word : LogLevel → String
  | debug => "DEBUG"
  | warn => "WARN"

/-- An entry of the log. -/
structure LogEntry where
  /-- How much it matters. -/
  level : LogLevel
  /-- What it says. -/
  message : String
deriving DecidableEq, Repr

/-- An entry in one line. -/
def LogEntry.line (entry : LogEntry) : String := entry.level.word ++ " " ++ entry.message

/-- The tag in front of every log message. -/
def logTag : String := "[Sveltesheet] "

/-- What preprocessing a source comes to. -/
structure PreprocessRun where
  /-- The scoped source, or the diagnostic that stands in its way. -/
  outcome : Except Diagnostic PreprocessResult
  /-- What was logged, in order. -/
  log : List LogEntry

/-- The scoped source. -/
def scopeSource (ids : InstanceIds) (source : String) : PreprocessResult :=
  let elements := scopeElements source.toList
  let components := scopeComponents ids elements.text
  let forwardingElements := forwardScope .element components.text
  let forwardingComponents := forwardScope .component forwardingElements.text
  { code := String.ofList forwardingComponents.text
    tagsScoped := UInt32.ofNat elements.places
    componentsScoped := UInt32.ofNat components.places
    cssTargetsResolved := UInt32.ofNat (forwardingElements.places + forwardingComponents.places) }

/-- The text of the scoped source. -/
def addAttributesToTags (ids : InstanceIds) (source : String) : String :=
  (scopeSource ids source).code

/-- The entry for a diagnostic. -/
def Diagnostic.logEntry (diagnostic : Diagnostic) : LogEntry :=
  ⟨.warn, logTag ++ diagnostic.display⟩

/-- The entry for a scoped source of a file. -/
def PreprocessResult.logEntry (filePath : String) (result : PreprocessResult) : LogEntry :=
  ⟨.debug, logTag ++ filePath ++ ": scoped " ++ toString result.tagsScoped.toNat ++ " tags, " ++
    toString result.componentsScoped.toNat ++ " components, resolved " ++
    toString result.cssTargetsResolved.toNat ++ " cssTargets"⟩

/-- Scopes a source, in strict mode only if nothing is wrong with it. -/
def preprocess (ids : InstanceIds) (options : PreprocessOptions) (source : String) :
    PreprocessRun :=
  let diagnostics := if options.strict then diagnose ids options.filePath source.toList else []
  match diagnostics with
  | first :: _ => ⟨.error first, diagnostics.map Diagnostic.logEntry⟩
  | [] =>
    let result := scopeSource ids source
    ⟨.ok result, [result.logEntry options.filePath]⟩

/-- Strict preprocessing comes to the first diagnostic, if there is one. -/
theorem outcome_eq_error_iff {ids : InstanceIds} {file source : String} {first : Diagnostic} :
    (preprocess ids ⟨true, file⟩ source).outcome = .error first ↔
      (diagnose ids file source.toList).head? = some first := by
  unfold preprocess
  rw [if_pos rfl]
  cases diagnose ids file source.toList <;> simp

/-- In strict mode a source with a diagnostic is not scoped. -/
theorem outcome_of_mem_diagnose {ids : InstanceIds} {file : String} {source : List Char}
    {diagnostic : Diagnostic} (reported : diagnostic ∈ diagnose ids file source) :
    ∃ first, (preprocess ids ⟨true, file⟩ (String.ofList source)).outcome = .error first := by
  obtain ⟨first, others, all⟩ := List.exists_cons_of_ne_nil (List.ne_nil_of_mem reported)
  refine ⟨first, outcome_eq_error_iff.mpr ?_⟩
  rw [String.toList_ofList, all]
  rfl

/-- Preprocesses one of several sources: the path of its own file replaces the one of
the options. -/
def PreprocessInput.run (options : PreprocessOptions) (input : PreprocessInput) : PreprocessRun :=
  preprocess input.instanceIds ⟨options.strict, input.filePath⟩ input.code

/-- The outcomes of several sources, in their order. -/
def preprocessBatch (options : PreprocessOptions) (inputs : List PreprocessInput) :
    List (Except Diagnostic PreprocessResult) :=
  inputs.map fun input => (input.run options).outcome

end ScopedMarkup
