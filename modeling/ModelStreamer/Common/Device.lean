import Mathlib.Tactic.Common

/-!
# Devices

Where the destinations of a submission live.  Two host devices are the same device whatever
their ordinals are.
-/

namespace ModelStreamer
namespace Common

/-- {lit}`DeviceType`. -/
inductive DeviceType where
  | cpu
  | cuda
deriving DecidableEq, Repr

/-- {lit}`Device`: a type and an ordinal that a host does not use. -/
structure Device where
  type : DeviceType
  id : Nat
deriving DecidableEq, Repr

/-- {lit}`Device::is_host`. -/
def Device.isHost (device : Device) : Bool :=
  device.type = .cpu

/-- The equality of devices, which ignores the ordinal of a host. -/
def Device.same (left right : Device) : Bool :=
  left.type = right.type && (left.isHost || left.id = right.id)

@[simp]
theorem Device.same_self (device : Device) : device.same device = true := by
  simp [Device.same]

end Common
end ModelStreamer
