import JustDb.Basic
import JustDb.Library.Stateful

/-!
# Whose fault an error is

The kinds of `StorageError`.  Past the checks of its arguments the code constructs errors
of the system only, which `FailsInternally` follows through results and actions.
-/

namespace JustDb

open Stateful

namespace StorageError

/-- check if this error is retry-able -/
def isRetryable : StorageError → Bool
  | .io => true
  | _ => false

/-- check if this error indicates corruption -/
def isCorrupt : StorageError → Bool
  | .corruption _ | .checksumMismatch _ _ => true
  | _ => false

/-- check if this error user's fault (client) -/
def isClientError : StorageError → Bool
  | .invalidKeySize _ _ | .invalidValueSize _ _ | .readOnly | .closed | .invalidOperation _
  | .config _ => true
  | _ => false

/-- check if this error system (server) -/
def isServerError : StorageError → Bool
  | .io | .compression _ | .decompression _ | .corruption _ => true
  | _ => false

/-- get the error category as a string -/
def category : StorageError → String
  | .io => "io"
  | .compression _ => "compression"
  | .decompression _ => "decompression"
  | .checksumMismatch _ _ => "checksum"
  | .invalidKeySize _ _ => "invalid_key_size"
  | .invalidValueSize _ _ => "invalid_value_size"
  | .corruption _ => "corruption"
  | .config _ => "config"
  | .readOnly => "read_only"
  | .closed => "closed"
  | .invalidOperation _ => "invalid_operation"

/-- An error that is not the client's is the server's or tells of corruption: a checksum
mismatch is corruption and nobody's fault. -/
theorem isClientError_eq_false_iff (failure : StorageError) :
    failure.isClientError = false ↔ failure.isServerError = true ∨ failure.isCorrupt = true := by
  cases failure <;> simp [isClientError, isServerError, isCorrupt]

/-- Only the system's errors are worth another try. -/
theorem isServerError_of_isRetryable {failure : StorageError}
    (retryable : failure.isRetryable = true) : failure.isServerError = true := by
  cases failure <;> first | rfl | cases retryable

/-- The category tells the kind of an error. -/
theorem isClientError_congr {first second : StorageError}
    (same : first.category = second.category) : first.isClientError = second.isClientError := by
  cases first <;> cases second <;> first | rfl | simp [category] at same

end StorageError

/-- A panic, or an error that is not the client's. -/
def Fault.Internal : Fault → Prop
  | .panic => True
  | .error failure => failure.isClientError = false

/-- The result is a value or an internal fault. -/
def Result.FailsInternally {α : Type} (result : Result α) : Prop :=
  ∀ fault, result = .error fault → fault.Internal

namespace Result

variable {α β : Type}

theorem failsInternally_ok (value : α) : FailsInternally (.ok value : Result α) :=
  nofun

theorem failsInternally_error {fault : Fault} (internal : fault.Internal) :
    FailsInternally (.error fault : Result α) := by
  rintro _ ⟨⟩
  exact internal

theorem FailsInternally.bind {result : Result α} {next : α → Result β}
    (first : result.FailsInternally) (second : ∀ value, (next value).FailsInternally) :
    (result >>= next).FailsInternally := by
  intro fault failed
  rcases bind_eq_error.mp failed with here | ⟨value, -, later⟩
  · exact first fault here
  · exact second value fault later

theorem FailsInternally.ite {condition : Prop} [Decidable condition] {yes no : Result α}
    (first : yes.FailsInternally) (second : no.FailsInternally) :
    (if condition then yes else no).FailsInternally := by
  split
  · exact first
  · exact second

theorem FailsInternally.foldlM {step : β → α → Result β}
    (each : ∀ state item, (step state item).FailsInternally) (items : List α) (start : β) :
    (items.foldlM step start).FailsInternally := by
  induction items generalizing start with
  | nil => exact failsInternally_ok start
  | cons item items ih =>
      rw [List.foldlM_cons]
      exact (each start item).bind ih

theorem failsInternally_checkedAdd (a b : Nat) : (checkedAdd a b).FailsInternally := by
  intro fault failed
  rw [checkedAdd_eq_error failed]
  trivial

end Result

/-- The action returns a value or ends with an internal fault. -/
abbrev FailsInternally {σ α : Type} (action : EStateM Fault σ α) : Prop :=
  Ensures (fun _ => True) (fun fault _ => fault.Internal) action

theorem Result.FailsInternally.lift {σ α : Type} {result : Result α}
    (internal : result.FailsInternally) :
    JustDb.FailsInternally (lift result : EStateM Fault σ α) :=
  ensures_lift fun fault _ failed _ => internal fault failed

theorem FailsInternally.of_error {σ α : Type} {action : EStateM Fault σ α}
    (internal : FailsInternally action) {state reached : σ} {fault : Fault}
    (failed : action state = .error fault reached) : fault.Internal :=
  Ensures.of_error internal trivial failed

theorem failsInternally_of_error {σ α : Type} {action : EStateM Fault σ α}
    (internal : ∀ {state fault reached}, action state = .error fault reached → fault.Internal) :
    FailsInternally action := by
  intro state _
  cases ran : action state with
  | ok value reached => trivial
  | error fault reached => exact internal ran

theorem FailsInternally.outcome {σ α : Type} {action : EStateM Fault σ α}
    (internal : FailsInternally action) (state : σ) :
    Result.FailsInternally (outcome (action state)) := by
  intro fault failed
  cases ran : action state with
  | ok value reached =>
      rw [ran] at failed
      cases failed
  | error failure reached =>
      rw [ran] at failed
      cases failed
      exact internal.of_error ran

end JustDb
