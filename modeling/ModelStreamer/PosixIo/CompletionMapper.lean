import ModelStreamer.Common.ResponseCode

/-!
# Completion results

What the kernel reported for one read, and the code a caller is given for it.  The result is
the number of bytes transferred, or a negative errno.
-/

namespace ModelStreamer
namespace PosixIo

open Common

/-- {lit}`FileRef`: a descriptor and whether it was opened with {lit}`O_DIRECT`. -/
structure FileRef where
  fd : Int
  direct : Bool
deriving DecidableEq, Repr

/-! ## Errnos -/

/-- {lit}`EINTR`. -/
def eINTR : Int := 4

/-- {lit}`EBADF`. -/
def eBADF : Int := 9

/-- {lit}`EAGAIN`. -/
def eAGAIN : Int := 11

/-- {lit}`EFAULT`. -/
def eFAULT : Int := 14

/-- {lit}`EBUSY`. -/
def eBUSY : Int := 16

/-- {lit}`EINVAL`. -/
def eINVAL : Int := 22

/-- {lit}`ECANCELED`. -/
def eCANCELED : Int := 125

/-! ## The table -/

/-- {lit}`is_internal_error`: the result means a fault of the streamer itself. -/
def isInternalError (res : Int) (file : FileRef) : Bool :=
  if 0 ≤ res then false
  else if -res = eFAULT ∨ -res = eBADF then true
  else decide (-res = eINVAL) && file.direct

/-- {lit}`is_transient`: the read was interrupted before anything was read. -/
def isTransient (res : Int) : Bool :=
  if 0 ≤ res then false
  else decide (-res ∈ [512, 513, 514, 516, eINTR])

/-- {lit}`submit_can_defer`: a submission that failed with this errno may be tried again. -/
def submitCanDefer (error : Int) : Bool :=
  decide (error = eAGAIN ∨ error = eBUSY) || isTransient (-error)

/-- {lit}`map_completion`. -/
def mapCompletion (res : Int) (file : FileRef) : ResponseCode :=
  if 0 ≤ res then .success
  else if -res = eCANCELED then .finishedError
  else if isInternalError res file then .unknownError
  else .fileAccessError

/-- Only a cancelled read is mapped to the teardown code. -/
theorem mapCompletion_eq_finishedError {res : Int} {file : FileRef} :
    mapCompletion res file = .finishedError ↔ res = -eCANCELED := by
  unfold mapCompletion eCANCELED
  split_ifs <;> simp <;> omega

/-- No result is mapped to the timeout code. -/
theorem mapCompletion_ne_timedOut (res : Int) (file : FileRef) :
    mapCompletion res file ≠ .timedOut := by
  unfold mapCompletion
  split_ifs <;> simp

end PosixIo
end ModelStreamer
