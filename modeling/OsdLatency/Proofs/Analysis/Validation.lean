import Mathlib.Tactic.Common
import OsdLatency.Analysis.Request

/-!
# Which requests are accepted

A request is accepted if its field has one of twelve names and its threshold is not negative. The
field is checked first, so a request with both faults is refused for its field.

## Main definitions

* `LatencyField.fieldNames` — the names a field can be asked for by

## Main results

* `LatencyField.ofName_eq_ok_iff`, `LatencyField.ofName_of_not_mem` — the field of a name, and why
  there is none
* `Request.validate_eq_ok_iff`, `Request.validate_of_not_mem`, `Request.validate_of_negative` — what
  a request asks for, and why it is refused
-/

namespace OsdLatency

namespace LatencyField

variable {name : String} {field : LatencyField}

/-- The names a field can be asked for by. -/
def fieldNames : List String :=
  ["throttle_lat", "recv_lat", "dispatch_lat", "queue_lat", "osd_lat", "bluestore_lat", "lat",
    "prepare", "aio_wait", "aio_size", "seq_wait", "kv_commit"]

example : fieldNames.length = 12 ∧ fieldNames.Nodup := by decide

theorem mem_fieldNames : name ∈ fieldNames ↔ ∃ field : LatencyField, field.name = name := by
  have hnames : fieldNames = (everywhere ++ Substage.all.map substage).map LatencyField.name := rfl
  have hall : ∀ field, field ∈ everywhere ++ Substage.all.map substage := fun field => by
    cases field with
    | component c => cases c <;> decide
    | final => decide
    | substage stage => cases stage <;> decide
  rw [hnames, List.mem_map]
  exact ⟨fun ⟨field, _, h⟩ => ⟨field, h⟩, fun ⟨field, h⟩ => ⟨field, hall field, h⟩⟩

/-- A field is found by its own name only. -/
theorem ofName_eq_ok_iff : ofName name = .ok field ↔ field.name = name := by
  constructor
  · intro h
    unfold ofName at h
    split at h
    · rename_i stage hstage
      obtain rfl := Except.ok.inj h
      have hname := List.find?_some hstage
      exact beq_iff_eq.mp hname
    · split_ifs at h
      split at h
      · rename_i found hfound
        obtain rfl := Except.ok.inj h
        have hname := List.find?_some hfound
        exact beq_iff_eq.mp hname
      · exact absurd h nofun
  · rintro rfl
    exact ofName_name field

/-- What no field is called is refused, and the end of the name decides how. -/
theorem ofName_of_not_mem (h : name ∉ fieldNames) : ofName name =
    .error (if "lat".toList <:+ name.toList then .unknownLatencyField name
      else .notLatencyField name) := by
  cases hfound : ofName name with
  | ok field => exact absurd (mem_fieldNames.mpr ⟨field, ofName_eq_ok_iff.mp hfound⟩) h
  | error failure =>
    unfold ofName at hfound
    simp only [List.isSuffixOf_iff_suffix] at hfound
    split at hfound
    · exact absurd hfound nofun
    · split_ifs at hfound ⊢
      · split at hfound
        · exact absurd hfound nofun
        · exact hfound.symm
      · exact hfound.symm

end LatencyField

namespace Request

open LatencyField (fieldNames)

variable {request : Request} {field : LatencyField} {selection : Selection} {threshold : Int64}

theorem checkThreshold_of_negative (h : threshold < 0) :
    checkThreshold (some threshold) = .error (.negativeThreshold threshold) := if_pos h

theorem checkThreshold_of_sound {threshold : Option Int64} (h : ∀ t ∈ threshold, ¬t < 0) :
    checkThreshold threshold = .ok (threshold.map Int64.toUInt64) := by
  cases threshold with
  | none => rfl
  | some t => exact if_neg (h t rfl)

/-- What a request asks for, if it is accepted. -/
theorem validate_eq_ok_iff : request.validate = .ok (field, selection) ↔
    LatencyField.ofName request.field = .ok field ∧ ∃ threshold,
      checkThreshold request.threshold = .ok threshold ∧
        .ofRequest request.osd threshold request.infer = selection := by
  unfold validate
  cases LatencyField.ofName request.field with
  | error failure => simp [bind, Except.bind]
  | ok ownField =>
    cases checkThreshold request.threshold with
    | error failure => simp [bind, Except.bind]
    | ok threshold => simp [bind, Except.bind, pure, Except.pure]

/-- The records that a request with a sound threshold asks for. -/
def askedSelection (request : Request) : Selection :=
  .ofRequest request.osd (request.threshold.map Int64.toUInt64) request.infer

theorem validate_of_sound (known : field.name = request.field)
    (sound : ∀ t ∈ request.threshold, ¬t < 0) :
    request.validate = .ok (field, request.askedSelection) :=
  validate_eq_ok_iff.mpr
    ⟨LatencyField.ofName_eq_ok_iff.mpr known, _, checkThreshold_of_sound sound, rfl⟩

/-- A name of no field is refused whatever the threshold is. -/
theorem validate_of_not_mem (unknown : request.field ∉ fieldNames) : request.validate =
    .error (if "lat".toList <:+ request.field.toList then .unknownLatencyField request.field
      else .notLatencyField request.field) := by
  rw [validate, LatencyField.ofName_of_not_mem unknown]
  rfl

theorem validate_of_negative (known : request.field ∈ fieldNames)
    (given : request.threshold = some threshold) (negative : threshold < 0) :
    request.validate = .error (.negativeThreshold threshold) := by
  obtain ⟨field, hname⟩ := LatencyField.mem_fieldNames.mp known
  rw [validate, LatencyField.ofName_eq_ok_iff.mpr hname, given, checkThreshold_of_negative negative]
  rfl

end Request

end OsdLatency
