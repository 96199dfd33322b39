import SchemaClasses.Generation
import SchemaClasses.Proofs.Runs

/-!
# Sessions

Modules that are generated one after the other, each from its own text and with its own settings,
while one collector takes the warnings of all of them. The collector only grows, and nobody reads
it: a job gives what it gives alone, whatever is collected already and whatever failed before it.
-/

namespace SchemaClasses

/-! ## One document -/

namespace Document

variable {config : Config} {record after : Record} {document : Document}

/-- A document fails with its first definition that fails, and leaves what those before it record. -/
theorem emit_eq_error {e : EmissionError}
    (h : Document.emit config record document = (.error e, after)) :
    ∃ front offending back texts, document = front ++ offending :: back ∧
      Document.emit config record front = (.ok texts, after) ∧ offending.emit config = .error e := by
  -- The first definition fails, or the failure is among the rest, started from what it recorded.
  induction document generalizing record with
  | nil => cases h
  | cons definition rest ih =>
    cases hfirst : definition.emit config with
    | error d =>
      rw [emit_cons_error hfirst] at h
      cases h
      exact ⟨[], definition, rest, [], rfl, emit_nil, hfirst⟩
    | ok fragment =>
      rw [emit_cons_ok hfirst, Prod.mk.injEq] at h
      cases hrest : Document.emit config (record.add fragment) rest with
      | mk result last =>
        rw [hrest] at h
        cases result with
        | ok texts => cases h.1
        | error d =>
          cases h.1
          cases h.2
          obtain ⟨front, offending, back, texts, rfl, hfront, hoffending⟩ := ih hrest
          refine ⟨definition :: front, offending, back, fragment.text :: texts, rfl, ?_, hoffending⟩
          rw [emit_cons_ok hfirst, hfront]
          rfl

/-- What is collected before has no influence on the module of a document, its imports included, and
    stays in front of the warnings of the document. -/
theorem generate_eq_fresh (config : Config) (commandLine : Text) (before : Diagnostics)
    (document : Document) :
    document.generate config commandLine before =
      ((document.generate config commandLine []).1,
        before ++ (document.generate config commandLine []).2) := by
  simp only [generate]
  rw [emit_eq_fresh config { warnings := before }]
  rfl

end Document

/-! ## One job -/

/-- A text that a module is to be generated for, with the settings and the command line for it. -/
structure Job where
  config : Config
  commandLine : Text
  text : String

namespace Job

/-- The module of a job, and what a collector holds after it. -/
def run (job : Job) (before : Diagnostics) : Except GenerationError Generation × Diagnostics :=
  generate job.config job.commandLine before job.text

/-- A job with a collector of its own. -/
def alone (job : Job) : Except GenerationError Generation × Diagnostics :=
  job.run []

/-- What a job gives and records alone: nothing is recorded on a text that is refused, and on a
    document that fails it is what the definitions before the failing one record. -/
inductive Outcome (job : Job) : Except GenerationError Generation × Diagnostics → Prop
  | refused {e : DocumentError} (text : Document.ofText job.text = .error e) :
      Outcome job (.error (.document e), [])
  | failed {front back : Document} {offending : Definition} {texts : List Text} {after : Record}
      {e : EmissionError}
      (text : Document.ofText job.text = .ok (front ++ offending :: back))
      (emitted : Document.emit job.config {} front = (.ok texts, after))
      (error : offending.emit job.config = .error e) :
      Outcome job (.error (.emission e), after.warnings)
  | finished {document : Document} {texts : List Text} {after : Record} {generation : Generation}
      (text : Document.ofText job.text = .ok document)
      (emitted : Document.emit job.config {} document = (.ok texts, after))
      (code : generation.code = Module.render job.config job.commandLine
        (texts.filter (!·.isEmpty)) after.imports) :
      Outcome job (.ok generation, after.warnings)

/-- What a job alone gives and records, for each way in which it can end. -/
theorem outcome_alone (job : Job) : job.Outcome job.alone := by
  unfold alone run generate
  cases htext : Document.ofText job.text with
  | error e => exact .refused htext
  | ok document =>
    simp only [Document.generate]
    cases hemit : Document.emit job.config {} document with
    | mk result after =>
      cases result with
      | ok texts => exact .finished htext hemit rfl
      | error e =>
        obtain ⟨front, offending, back, texts, rfl, hfront, hoffending⟩ :=
          Document.emit_eq_error hemit
        exact .failed htext hfront hoffending

/-- A job gives what it gives alone, and adds what it records alone. -/
theorem run_eq_alone (job : Job) (before : Diagnostics) :
    job.run before = (job.alone.1, before ++ job.alone.2) := by
  unfold alone run generate
  cases Document.ofText job.text with
  | error e => exact Prod.ext rfl (List.append_nil before).symm
  | ok document =>
    simp only []
    rw [document.generate_eq_fresh job.config job.commandLine before]

/-! ## Several jobs -/

/-- Jobs that are run one after the other with one collector: what each of them gives, with what the
    collector holds after it. -/
def runEach (before : Diagnostics) :
    List Job → List (Except GenerationError Generation × Diagnostics)
  | [] => []
  | job :: rest => job.run before :: runEach (job.run before).2 rest

/-- What jobs record if each of them is run alone. -/
def recorded (jobs : List Job) : Diagnostics :=
  jobs.flatMap (·.alone.2)

/-- What other jobs leave behind makes no difference to the result of a job. -/
theorem runEach_results (before : Diagnostics) (jobs : List Job) :
    (runEach before jobs).map Prod.fst = jobs.map (·.alone.1) := by
  induction jobs generalizing before with
  | nil => rfl
  | cons job rest ih => rw [runEach, List.map_cons, List.map_cons, ih, run_eq_alone]

/-- After each job the collector holds what the jobs so far record alone, in order. -/
theorem runEach_collected (before : Diagnostics) (jobs : List Job) :
    (runEach before jobs).map Prod.snd =
      (List.range jobs.length).map fun k => before ++ recorded (jobs.take (k + 1)) := by
  induction jobs generalizing before with
  | nil => rfl
  | cons job rest ih =>
    rw [runEach, List.map_cons, ih, run_eq_alone, List.length_cons, List.range_succ_eq_map,
      List.map_cons, List.map_map]
    -- The first job is among those before every later one.
    simp [recorded, Function.comp_def]

/-- Whatever the collector holds at first, each of several jobs gives the module or the error that
    it gives alone. After each of them the collector holds what it held at first and then what the
    jobs up to this one record alone, in order. -/
theorem runEach_eq_alone (before : Diagnostics) (jobs : List Job) :
    (runEach before jobs).map Prod.fst = jobs.map (·.alone.1) ∧
      (runEach before jobs).map Prod.snd =
        (List.range jobs.length).map (fun k => before ++ recorded (jobs.take (k + 1))) ∧
      ∀ job : Job, job.Outcome job.alone :=
  ⟨runEach_results before jobs, runEach_collected before jobs, outcome_alone⟩

end Job

end SchemaClasses
