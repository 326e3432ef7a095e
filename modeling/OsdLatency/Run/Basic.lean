import OsdLatency.Run.Notice

/-!
# Runs

A run is the list of what it does, one step after another, together with how it ends. Running two
things in sequence appends the steps of the second to those of the first, unless the first fails.

## Main definitions

* `Step`, `Run` — writing some text or giving a notice; the steps and the outcome
* `Run.write`, `Run.note`, `Run.fail`, `Run.ofExcept` — runs of at most one step
* `Run.output`, `Run.notices` — the text that is written and the notices that are given

## Main results

* `Run.output_bind_ok`, `Run.output_bind_error` — what a sequence of two runs writes
-/

namespace OsdLatency

/-- One step of a run. -/
inductive Step
  | write (text : String)
  | note (notice : Notice)
deriving DecidableEq

/-- The steps of a run in order, and how it ends. -/
structure Run (α : Type) where
  steps : List Step
  outcome : Except Failure α

namespace Run

/-- The run without steps. -/
def done (value : α) : Run α := ⟨[], .ok value⟩

/-- A run that fails at once. -/
def fail (failure : Failure) : Run α := ⟨[], .error failure⟩

/-- One run after another. The second is not begun if the first fails. -/
def andThen (first : Run α) (second : α → Run β) : Run β :=
  match first.outcome with
  | .ok value => ⟨first.steps ++ (second value).steps, (second value).outcome⟩
  | .error failure => ⟨first.steps, .error failure⟩

instance : Monad Run where
  pure := done
  bind := andThen

instance : LawfulMonad Run := LawfulMonad.mk' Run
  (fun run => by
    obtain ⟨steps, outcome⟩ := run
    cases outcome <;> simp [Functor.map, andThen, done])
  (fun value next => by simp [bind, pure, andThen, done])
  (fun run next last => by
    obtain ⟨steps, outcome⟩ := run
    cases outcome with
    | error failure => rfl
    | ok value =>
      simp only [bind, andThen]
      cases (next value).outcome <;> simp)

/-- Write some text. -/
def write (text : String) : Run Unit := ⟨[.write text], .ok ()⟩

/-- Give a notice. -/
def note (notice : Notice) : Run Unit := ⟨[.note notice], .ok ()⟩

/-- A result that may be a failure. -/
def ofExcept (result : Except Failure α) : Run α := ⟨[], result⟩

/-- Write some lines, each with a line end. -/
def writeLines (lines : List String) : Run Unit :=
  ⟨lines.map fun line => .write (line ++ "\n"), .ok ()⟩

end Run

/-- The text a step writes. -/
def Step.text : Step → String
  | write text => text
  | note _ => ""

/-- The notice a step gives. -/
def Step.notice? : Step → Option Notice
  | write _ => none
  | note notice => some notice

namespace Run

/-- Everything a run writes. -/
def output (run : Run α) : String := String.join (run.steps.map Step.text)

/-- The notices of a run in order. -/
def notices (run : Run α) : List Notice := run.steps.filterMap Step.notice?

@[simp] theorem pure_eq (value : α) : (pure value : Run α) = ⟨[], .ok value⟩ := rfl

theorem bind_ok {first : Run α} {value : α} (h : first.outcome = .ok value) (second : α → Run β) :
    first >>= second = ⟨first.steps ++ (second value).steps, (second value).outcome⟩ := by
  change andThen first second = _
  simp [andThen, h]

theorem bind_error {first : Run α} {failure : Failure} (h : first.outcome = .error failure)
    (second : α → Run β) : first >>= second = ⟨first.steps, .error failure⟩ := by
  change andThen first second = _
  simp [andThen, h]

/-- A sequence writes what its parts write. -/
theorem output_bind_ok {first : Run α} {value : α} (h : first.outcome = .ok value)
    (second : α → Run β) :
    (first >>= second).output = first.output ++ (second value).output := by
  simp [bind_ok h, output, String.join_append]

/-- What follows a failure writes nothing. -/
theorem output_bind_error {first : Run α} {failure : Failure} (h : first.outcome = .error failure)
    (second : α → Run β) : (first >>= second).output = first.output := by
  simp [bind_error h, output]

end Run

end OsdLatency
