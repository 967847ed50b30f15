import Sandbox.Abort
import Sandbox.Trap.FpFile
import Sandbox.Trap.Frame

/-! # Hardware

The privileged primitives of a CPU: running a frame until it traps, and moving the
floating-point registers to and from a file. A machine may do anything with its own
state, and it may abort.
-/

namespace Sandbox

abbrev MachineAction (μ : Type) := EStateM Abort μ

class Hardware (μ : Type) where
  /-- Run a frame under a root word; the result is the trapped frame. -/
  enter : Word → TrapFrame → MachineAction μ TrapFrame
  /-- Copy a file into the floating-point registers. -/
  load : FpFile → MachineAction μ Unit
  /-- The file with the floating-point registers copied into it. -/
  save : FpFile → MachineAction μ FpFile

end Sandbox
