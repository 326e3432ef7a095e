import OsdLatency.Run.Basic

/-!
# Delivery to a sink that fills up

The output of a run goes to a sink. A sink may have room for a number of bytes only: it takes
bytes as long as there is room, and the first text that does not fit as a whole ends the run.

## Main definitions

* `Delivery` — what the sink has received, the notices given until then, and how the run ended
* `Run.deliver` — a run on a sink with limited room

## Main results

* `Run.received_deliver` — the sink receives the output, cut where the room ends
* `Run.outcome_deliver` — the run fails for the sink exactly if its output does not fit
-/

namespace OsdLatency

/-- The bytes of a text. -/
def bytesOf (text : String) : List UInt8 := text.toUTF8.data.toList

/-- What has become of a run. -/
structure Delivery (α : Type) where
  received : List UInt8
  notices : List Notice
  outcome : Except Failure α

/-- Carry out some steps on a sink with room for `room` bytes. -/
def deliverSteps (outcome : Except Failure α) : Nat → List Step → Delivery α
  | _, [] => ⟨[], [], outcome⟩
  | room, .note notice :: steps =>
    let rest := deliverSteps outcome room steps
    { rest with notices := notice :: rest.notices }
  | room, .write text :: steps =>
    let bytes := bytesOf text
    if bytes.length ≤ room then
      let rest := deliverSteps outcome (room - bytes.length) steps
      { rest with received := bytes ++ rest.received }
    else ⟨bytes.take room, [], .error .unwritable⟩

/-- Carry out a run on a sink with room for `room` bytes. -/
def Run.deliver (run : Run α) (room : Nat) : Delivery α := deliverSteps run.outcome room run.steps

theorem bytesOf_append (first second : String) :
    bytesOf (first ++ second) = bytesOf first ++ bytesOf second := by
  simp [bytesOf]

theorem bytesOf_join (texts : List String) :
    bytesOf (String.join texts) = texts.flatMap bytesOf := by
  induction texts with
  | nil => rfl
  | cons text texts ih => rw [String.join_cons, bytesOf_append, ih, List.flatMap_cons]

/-- The sink receives what is written, as far as there is room. -/
theorem received_deliverSteps (outcome : Except Failure α) (room : Nat) (steps : List Step) :
    (deliverSteps outcome room steps).received =
      ((steps.map Step.text).flatMap bytesOf).take room := by
  induction steps generalizing room with
  | nil => simp [deliverSteps]
  | cons step steps ih =>
    cases step with
    | note notice => simp [deliverSteps, ih, Step.text, show bytesOf "" = [] from rfl]
    | write text =>
      simp only [deliverSteps, List.map_cons, Step.text, List.flatMap_cons, List.take_append]
      split
      · rename_i h
        simp [ih, List.take_of_length_le h]
      · rename_i h
        simp [Nat.sub_eq_zero_of_le (Nat.le_of_lt (Nat.lt_of_not_le h))]

/-- A run ends as it would on a sink without limit if all that is written fits. -/
theorem outcome_deliverSteps (outcome : Except Failure α) (room : Nat) (steps : List Step) :
    (deliverSteps outcome room steps).outcome =
      if ((steps.map Step.text).flatMap bytesOf).length ≤ room then outcome
      else .error .unwritable := by
  induction steps generalizing room with
  | nil => simp [deliverSteps]
  | cons step steps ih =>
    cases step with
    | note notice => simp [deliverSteps, ih, Step.text, show bytesOf "" = [] from rfl]
    | write text =>
      simp only [deliverSteps, List.map_cons, Step.text, List.flatMap_cons, List.length_append]
      split
      · rename_i h
        rw [ih]
        congr 1
        simp only [eq_iff_iff]
        omega
      · rename_i h
        rw [if_neg (by omega)]

theorem Run.received_deliver (run : Run α) (room : Nat) :
    (run.deliver room).received = (bytesOf run.output).take room := by
  rw [Run.deliver, received_deliverSteps, Run.output, bytesOf_join]

theorem Run.outcome_deliver (run : Run α) (room : Nat) :
    (run.deliver room).outcome =
      if (bytesOf run.output).length ≤ room then run.outcome else .error .unwritable := by
  rw [Run.deliver, outcome_deliverSteps, Run.output, bytesOf_join]

end OsdLatency
