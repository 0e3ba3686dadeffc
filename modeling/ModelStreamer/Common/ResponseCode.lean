import Mathlib.Tactic.Common

/-!
# Response codes and failures

The published codes of the streamer, in the order of their numbers, and the ways in which
a modelled function can end without a result: a thrown exception that carries a code, one
that carries none, or a loop without an end.
-/

namespace ModelStreamer
namespace Common

/-- The codes of {lit}`streamer/response_code.h`, in the order of their published numbers. -/
inductive ResponseCode where
  | success
  | finishedError
  | fileAccessError
  | eofError
  | s3NotSupported
  | glibcPrerequisite
  | insufficientFdLimit
  | invalidParameterError
  | emptyRequestError
  | busyError
  | caFileNotFound
  | unknownError
  | objPluginLoadError
  | gcsNotSupported
  | azureBlobNotSupported
  | fileTruncatedError
  | timedOut
  | unsupportedBackendMix
  | credentialsAlreadySet
  | retryableFileAccessError
  | fsStrategyConflict
  | fsStrategyUnavailable
  | fsAsyncEngineError
  | unsupportedDeviceType
  | deviceUnavailable
  | invalidDevice
  | deviceOutOfMemory
  | deviceTransferError
  | deviceDriverError
deriving DecidableEq, Repr, Inhabited

/-- How a call ends when it returns nothing. -/
inductive Failure where
  /-- {lit}`throw common::Exception(code)`. -/
  | exception (code : ResponseCode)
  /-- A failed {lit}`ASSERT`, or an access a vector refuses: an exception without a code. -/
  | assertion
  /-- The call does not come to a result: one of its loops has no way out. -/
  | endless
deriving DecidableEq, Repr

/-- {lit}`ASSERT(condition)`, which throws when the condition does not hold. -/
def assertThat (condition : Prop) [Decidable condition] : Except Failure Unit :=
  if condition then .ok () else .error .assertion

theorem assertThat_of {condition : Prop} [Decidable condition] (h : condition) :
    assertThat condition = .ok () :=
  if_pos h

/-! ## Calls that come to an end -/

/-- The call returns or throws. -/
def Terminates {α : Type*} (call : Except Failure α) : Prop :=
  call ≠ .error .endless

section Terminates

variable {α β : Type}

@[simp]
theorem terminates_ok (a : α) : Terminates (.ok a) := by
  rintro ⟨⟩

@[simp]
theorem terminates_pure (a : α) : Terminates (pure a : Except Failure α) := by
  rintro ⟨⟩

@[simp]
theorem terminates_assertion : Terminates (.error .assertion : Except Failure α) := by
  rintro ⟨⟩

@[simp]
theorem terminates_exception (code : ResponseCode) :
    Terminates (.error (.exception code) : Except Failure α) := by
  rintro ⟨⟩

@[simp]
theorem terminates_assertThat (condition : Prop) [Decidable condition] :
    Terminates (assertThat condition) := by
  unfold assertThat
  split <;> rintro ⟨⟩

/-- A call that goes on with another one comes to an end when both do. -/
theorem Terminates.bind {call : Except Failure α} {next : α → Except Failure β}
    (h : Terminates call) (hnext : ∀ a, call = .ok a → Terminates (next a)) :
    Terminates (call >>= next) := by
  cases call with
  | error failure =>
      intro hcontra
      exact h (congrArg Except.error (Except.error.inj hcontra))
  | ok a => exact hnext a rfl

/-- A failure of a call that comes to an end is an exception. -/
theorem Terminates.failure_ne {failure : Failure}
    (h : Terminates (.error failure : Except Failure α)) : failure ≠ .endless := by
  rintro rfl
  exact h rfl

end Terminates

end Common
end ModelStreamer
