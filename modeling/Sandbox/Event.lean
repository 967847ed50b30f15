import Sandbox.Action
import Sandbox.Tag.Owners

/-! # Events

What the supervisor asks of the hardware, in order: to drop cached mappings of
a tag, to enter the sandbox, and to move the floating-point registers. A flush
notes which owners hold the tag at that moment.
-/

namespace Sandbox

/-- Where cached mappings are dropped. -/
inductive FlushScope
  /-- On one CPU; none if the flush is not made for a CPU. -/
  | onCpu (cpu : Option Nat)
  | everywhere
  deriving DecidableEq, Repr

inductive Event
  | flush (scope : FlushScope) (tag : Asid) (holders : List OwnerId)
  | enter (cpu : Nat) (space : OwnerId) (tag : Asid) (root : Word) (frame : TrapFrame)
  | save (cpu : Nat)
  | load (cpu : Nat)
  deriving DecidableEq

/-- The events so far, and the tags whose flushes fail in each scope. -/
structure Trace where
  events : Array Event := #[]
  failing : FlushScope → List Asid := fun _ => []

end Sandbox
