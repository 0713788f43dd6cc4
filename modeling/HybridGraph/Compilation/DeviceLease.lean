import HybridGraph.Settings.Device
/-!
# Device leases

All compilations share one selected device.  Each holds a lease while it runs, and the selection
cannot change while any lease is out.
-/

namespace HybridGraph

/-- The selected device, and how many leases are out. -/
structure DeviceState where
  selected : Device := .standard
  leases : Nat := 0
deriving DecidableEq

/-- Another device was asked for while leases are out. -/
structure DeviceError where
  requested : Device
  selected : Device
  leases : Nat
deriving DecidableEq

/-- The wording of an error. -/
def DeviceError.message (e : DeviceError) : String :=
  s!"cannot switch to {e.requested.text} while {e.leases} compilation(s) target {e.selected.text}"

namespace DeviceState

/-- Selects a device.  It is refused while leases are out for another one. -/
def select (s : DeviceState) (device : Device) : Except DeviceError DeviceState :=
  if s.selected ≠ device ∧ 0 < s.leases then .error ⟨device, s.selected, s.leases⟩
  else .ok { s with selected := device }

/-- Selects a device and takes a lease on it. -/
def acquire (s : DeviceState) (device : Device) : Except DeviceError DeviceState :=
  (s.select device).map fun s => { s with leases := s.leases + 1 }

/-- Gives a lease back. -/
def release (s : DeviceState) : DeviceState := { s with leases := s.leases - 1 }

end DeviceState

end HybridGraph
