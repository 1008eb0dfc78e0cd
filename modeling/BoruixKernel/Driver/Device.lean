import Mathlib

/-!
# Devices

The kinds and the buses of the devices that the driver hub knows.
-/

namespace BoruixKernel

inductive DeviceKind where
  | Char
  | Block
  | Net
  | Display
  | Misc
deriving DecidableEq, Repr

inductive BusType where
  | Platform
  | Pci
  | Unknown
deriving DecidableEq, Repr

end BoruixKernel
