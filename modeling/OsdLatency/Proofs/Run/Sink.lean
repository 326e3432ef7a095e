import Mathlib.Tactic.Common
import OsdLatency.Run.Delivery

/-!
# Runs on sinks

A sink accepts bytes until it is full, and then it fails every write. A write may be accepted in
part only: the rest is offered again until all is accepted or a write fails. Texts are written in
pieces, and the first piece that is not accepted as a whole ends the run. Neither the pieces nor
what is accepted at once make a difference: a sink receives the output as far as it has room.

## Main definitions

* `Sink` — a sink with or without a limit
* `Sink.writeAll`, `Sink.writeEach` — offering bytes until they are accepted, and piece after piece
* `Pieces` — how texts are cut into the pieces that are written
* `Run.sendTo` — a run on a sink

## Main results

* `Run.sendTo_bind` — a sequence goes on with the sink that its first part left
* `Run.sendTo_eq_deliver`, `Run.sendTo_endless` — runs on sinks with and without a limit
-/

namespace OsdLatency

variable {α β : Type} {limit : Option ℕ} {n : ℕ} {held bytes : List UInt8}

/-- Some bytes are not too many for a sink. -/
def Fits (limit : Option ℕ) (bytes : List UInt8) : Prop := ∀ n ∈ limit, bytes.length ≤ n

instance (limit : Option ℕ) (bytes : List UInt8) : Decidable (Fits limit bytes) :=
  inferInstanceAs (Decidable (∀ n ∈ limit, bytes.length ≤ n))

theorem fits_some_iff : Fits (some n) bytes ↔ bytes.length ≤ n :=
  ⟨fun h => h n rfl, fun h _ hm => Option.some_inj.mp hm ▸ h⟩

/-- What is left of some bytes in a sink. -/
def kept (limit : Option ℕ) (bytes : List UInt8) : List UInt8 :=
  match limit with
  | none => bytes
  | some n => bytes.take n

/-- A sink that holds at most a number of bytes, if it has a limit. -/
structure Sink (limit : Option ℕ) where
  /-- How many of some bytes that are offered are accepted behind those that are held. A write that
  fails accepts none. -/
  accept : (held offered : List UInt8) → Option ℕ
  accept_full : ∀ held offered, offered ≠ [] → limit = some held.length →
    accept held offered = none
  accept_room : ∀ held offered, offered ≠ [] → Fits limit held → limit ≠ some held.length →
    ∃ k, accept held offered = some (k + 1) ∧ Fits limit (held ++ offered.take (k + 1))

namespace Sink

/-- The sink that accepts one byte at a time. -/
def bytewise (limit : Option ℕ) : Sink limit where
  accept held _ := if limit = some held.length then none else some 1
  accept_full _ _ _ hfull := if_pos hfull
  accept_room held offered _ hfits hroom := by
    refine ⟨0, if_neg hroom, fun n hn => ?_⟩
    have hne : n ≠ held.length := fun heq => hroom (by rw [← heq]; exact hn)
    have hle := hfits n hn
    rw [List.length_append, List.length_take]
    omega

instance : Inhabited (Sink limit) := ⟨bytewise limit⟩

/-- Offer some bytes until all are accepted or a write fails. -/
def writeAll (sink : Sink limit) (held : List UInt8) : List UInt8 → List UInt8 × Bool
  | [] => (held, true)
  | byte :: bytes =>
    match sink.accept held (byte :: bytes) with
    | some (k + 1) => sink.writeAll (held ++ (byte :: bytes).take (k + 1)) (bytes.drop k)
    -- A write that accepts nothing counts as failed.
    | some 0 => (held, false)
    | none => (held, false)
termination_by bytes => bytes.length
decreasing_by
  rw [List.length_drop, List.length_cons]
  omega

/-- Write one piece after another until one is not accepted as a whole. -/
def writeEach (sink : Sink limit) (held : List UInt8) : List (List UInt8) → List UInt8 × Bool
  | [] => (held, true)
  | piece :: pieces =>
    match sink.writeAll held piece with
    | (held, true) => sink.writeEach held pieces
    | (held, false) => (held, false)

end Sink

/-- How texts are cut into the pieces that are written one after another. -/
structure Pieces where
  cut : String → List (List UInt8)
  flatten_cut : ∀ text, (cut text).flatten = bytesOf text

/-- Every text in one piece. -/
def Pieces.whole : Pieces where
  cut text := [bytesOf text]
  flatten_cut _ := List.flatten_singleton

instance : Inhabited Pieces := ⟨.whole⟩

/-- Carry out some steps on a sink. -/
def Sink.carryOut (sink : Sink limit) (pieces : Pieces) (outcome : Except Failure α)
    (held : List UInt8) : List Step → Delivery α
  | [] => ⟨held, [], outcome⟩
  | .note notice :: steps =>
    let rest := sink.carryOut pieces outcome held steps
    { rest with notices := notice :: rest.notices }
  | .write text :: steps =>
    match sink.writeEach held (pieces.cut text) with
    | (held, true) => sink.carryOut pieces outcome held steps
    | (held, false) => ⟨held, [], .error .unwritable⟩

/-- Carry out a run on a sink that holds some bytes already. -/
def Run.sendTo (run : Run α) (sink : Sink limit) (pieces : Pieces) (held : List UInt8) :
    Delivery α :=
  sink.carryOut pieces run.outcome held run.steps

/-! ### Bytes and pieces -/

theorem kept_of_fits (h : Fits limit bytes) : kept limit bytes = bytes := by
  cases limit with
  | none => rfl
  | some n => exact List.take_of_length_le (h n rfl)

theorem kept_of_full (h : limit = some held.length) : kept limit (held ++ bytes) = held := by
  rw [h]
  exact List.take_left

/-- What does not fit is cut at the same place whatever follows. -/
theorem kept_append_of_not_fits (h : ¬Fits limit bytes) (more : List UInt8) :
    kept limit (bytes ++ more) = kept limit bytes ∧ ¬Fits limit (bytes ++ more) := by
  cases limit with
  | none => exact absurd (fun n hn => absurd hn (Option.not_mem_none n)) h
  | some n =>
    have hlt : n < bytes.length := by
      by_contra hle
      exact h fun m hm => by
        obtain rfl := Option.some_inj.mp hm
        omega
    refine ⟨List.take_append_of_le_length (Nat.le_of_lt hlt), fun hfits => ?_⟩
    have := hfits n rfl
    rw [List.length_append] at this
    omega

namespace Sink

/-- However the bytes are accepted, the sink keeps as many as it has room for, and all are accepted
exactly if they fit. -/
theorem writeAll_eq (sink : Sink limit) (hheld : Fits limit held) :
    sink.writeAll held bytes =
      (kept limit (held ++ bytes), decide (Fits limit (held ++ bytes))) := by
  induction hlength : bytes.length using Nat.strongRecOn generalizing held bytes with
  | ind length ih =>
    cases bytes with
    | nil =>
      rw [writeAll, List.append_nil, kept_of_fits hheld, decide_eq_true hheld]
    | cons byte bytes =>
      rw [writeAll]
      by_cases hfull : limit = some held.length
      · have hover : ¬Fits limit (held ++ byte :: bytes) := fun hfits => by
          have := hfits _ hfull
          rw [List.length_append, List.length_cons] at this
          omega
        rw [sink.accept_full held _ (List.cons_ne_nil _ _) hfull, decide_eq_false hover,
          kept_of_full hfull]
      · obtain ⟨k, haccept, hfits⟩ :=
          sink.accept_room held _ (List.cons_ne_nil byte bytes) hheld hfull
        have hless : (bytes.drop k).length < length := by
          rw [← hlength, List.length_drop, List.length_cons]
          omega
        have hjoin :
            held ++ (byte :: bytes).take (k + 1) ++ bytes.drop k = held ++ byte :: bytes := by
          rw [List.append_assoc, List.take_succ_cons, List.cons_append, List.take_append_drop]
        rw [haccept]
        dsimp only
        rw [ih _ hless hfits rfl, hjoin]

/-- Pieces are received as if they had been written at once. -/
theorem writeEach_eq (sink : Sink limit) (pieces : List (List UInt8)) (hheld : Fits limit held) :
    sink.writeEach held pieces =
      (kept limit (held ++ pieces.flatten), decide (Fits limit (held ++ pieces.flatten))) := by
  induction pieces generalizing held with
  | nil =>
    rw [writeEach, List.flatten_nil, List.append_nil, kept_of_fits hheld, decide_eq_true hheld]
  | cons piece pieces ih =>
    rw [writeEach, sink.writeAll_eq hheld, List.flatten_cons, ← List.append_assoc]
    by_cases hfits : Fits limit (held ++ piece)
    · rw [decide_eq_true hfits, kept_of_fits hfits]
      exact ih hfits
    · obtain ⟨hkept, hover⟩ := kept_append_of_not_fits hfits pieces.flatten
      rw [decide_eq_false hfits, hkept, decide_eq_false hover]

end Sink

/-! ### Runs -/

/-- Go on behind a delivery with the sink that it left, unless it has failed. -/
def Delivery.andThen (first : Delivery α) (second : α → List UInt8 → Delivery β) : Delivery β :=
  match first.outcome with
  | .ok value =>
    let rest := second value first.received
    { rest with notices := first.notices ++ rest.notices }
  | .error failure => ⟨first.received, first.notices, .error failure⟩

/-- Nothing follows a failure. -/
theorem Sink.carryOut_error (sink : Sink limit) (pieces : Pieces) (failure : Failure)
    (held : List UInt8) (steps : List Step) (next : α → List UInt8 → Delivery β) :
    (sink.carryOut pieces (.error failure : Except Failure α) held steps).andThen next =
      sink.carryOut pieces (.error failure) held steps := by
  induction steps generalizing held with
  | nil => rfl
  | cons step steps ih =>
    cases step with
    | note notice =>
      rw [carryOut, carryOut, ← ih]
      unfold Delivery.andThen
      cases (sink.carryOut pieces (.error failure : Except Failure α) held steps).outcome <;> rfl
    | write text =>
      rw [carryOut, carryOut]
      split
      · exact ih _
      · rfl

/-- What follows some steps begins with the sink that they left. -/
theorem Sink.carryOut_append (sink : Sink limit) (pieces : Pieces) (value : α)
    (held : List UInt8) (steps : List Step) (second : α → Run β) :
    (sink.carryOut pieces (.ok value) held steps).andThen
        (fun value held => (second value).sendTo sink pieces held) =
      sink.carryOut pieces (second value).outcome held (steps ++ (second value).steps) := by
  induction steps generalizing held with
  | nil => rfl
  | cons step steps ih =>
    rw [List.cons_append]
    cases step with
    | note notice =>
      rw [carryOut, carryOut, ← ih]
      unfold Delivery.andThen
      cases (sink.carryOut pieces (.ok value) held steps).outcome <;> rfl
    | write text =>
      rw [carryOut, carryOut]
      split
      · exact ih _
      · rfl

/-- A sequence is carried out as its first part and then its second part, which is not begun if the
sink has failed. -/
theorem Run.sendTo_bind (first : Run α) (second : α → Run β) (sink : Sink limit) (pieces : Pieces)
    (held : List UInt8) :
    (first >>= second).sendTo sink pieces held =
      (first.sendTo sink pieces held).andThen fun value held =>
        (second value).sendTo sink pieces held := by
  obtain ⟨steps, outcome⟩ := first
  cases outcome with
  | error failure => exact (sink.carryOut_error pieces failure held steps _).symm
  | ok value => exact (sink.carryOut_append pieces value held steps second).symm

/-- Some bytes more are received, and nothing else is different. -/
def Delivery.behind (held : List UInt8) (delivery : Delivery α) : Delivery α :=
  { delivery with received := held ++ delivery.received }

theorem Sink.carryOut_limited (sink : Sink (some n)) (pieces : Pieces) (outcome : Except Failure α)
    (hheld : held.length ≤ n) (steps : List Step) :
    sink.carryOut pieces outcome held steps =
      (deliverSteps outcome (n - held.length) steps).behind held := by
  induction steps generalizing held with
  | nil => rw [carryOut, deliverSteps, Delivery.behind, List.append_nil]
  | cons step steps ih =>
    cases step with
    | note notice =>
      rw [carryOut, deliverSteps, ih hheld]
      rfl
    | write text =>
      have hfits : Fits (some n) held := fun m hm => Option.some_inj.mp hm ▸ hheld
      have hroom : Fits (some n) (held ++ bytesOf text) ↔
          (bytesOf text).length ≤ n - held.length := by
        rw [fits_some_iff, List.length_append]
        omega
      rw [carryOut, sink.writeEach_eq _ hfits, pieces.flatten_cut, deliverSteps]
      by_cases h : (bytesOf text).length ≤ n - held.length
      · rw [decide_eq_true (hroom.mpr h), kept_of_fits (hroom.mpr h), if_pos h]
        dsimp only
        rw [ih (fits_some_iff.mp (hroom.mpr h)), List.length_append, ← Nat.sub_sub, Delivery.behind,
          Delivery.behind, List.append_assoc]
      · rw [decide_eq_false (mt hroom.mp h), if_neg h, kept, List.take_append,
          List.take_of_length_le hheld]
        rfl

theorem Sink.carryOut_endless (sink : Sink none) (pieces : Pieces) (outcome : Except Failure α)
    (held : List UInt8) (steps : List Step) :
    sink.carryOut pieces outcome held steps =
      { received := held ++ (steps.map Step.text).flatMap bytesOf
        notices := steps.filterMap Step.notice?
        outcome } := by
  induction steps generalizing held with
  | nil =>
    rw [carryOut]
    simp
  | cons step steps ih =>
    cases step with
    | note notice =>
      rw [carryOut, ih]
      simp [Step.text, Step.notice?, show bytesOf "" = [] from rfl]
    | write text =>
      have hfits : ∀ bytes, Fits none bytes := fun _ _ hn => absurd hn (Option.not_mem_none _)
      rw [carryOut, sink.writeEach_eq _ (hfits held), pieces.flatten_cut,
        decide_eq_true (hfits _), kept]
      dsimp only
      rw [ih]
      simp [Step.text, Step.notice?, List.filterMap_cons]

/-- On a sink with a limit a run is delivered, whatever the sink accepts at once and however texts
are cut. -/
theorem Run.sendTo_eq_deliver (run : Run α) (sink : Sink (some n)) (pieces : Pieces) :
    run.sendTo sink pieces [] = run.deliver n := by
  have hempty : ([] : List UInt8).length ≤ n := Nat.zero_le n
  rw [sendTo, sink.carryOut_limited pieces run.outcome hempty]
  rfl

/-- On a sink without a limit a run writes its whole output and ends as it does by itself. -/
theorem Run.sendTo_endless (run : Run α) (sink : Sink none) (pieces : Pieces) :
    run.sendTo sink pieces [] =
      { received := bytesOf run.output, notices := run.notices, outcome := run.outcome } := by
  rw [sendTo, sink.carryOut_endless, List.nil_append, output, bytesOf_join]
  rfl

end OsdLatency
