import Sandbox.Trap.Cause
import Sandbox.Trap.Frame

/-! # Exits

Why control came back from the sandbox, read off the trapped frame.
-/

namespace Sandbox

/-- What refused a faulting access. -/
inductive FaultKind
  /-- The mapping is missing or forbids the access. -/
  | page
  /-- The memory behind the mapping rejected the access. -/
  | access
  /-- The address lies in the hole between the canonical halves. -/
  | nonCanonical
  deriving DecidableEq, Repr

namespace FaultKind

def name : FaultKind → String
  | .page => "Page"
  | .access => "Access"
  | .nonCanonical => "NonCanonical"

end FaultKind

structure MemoryFault where
  cause : TrapCause
  addr : VirtualAddress
  access : Access
  kind : FaultKind
  /-- The access was made from user mode. -/
  user : Bool
  deriving DecidableEq, Repr

inductive Exit
  | syscall
  | fault (f : MemoryFault)
  | exception (c : TrapCause)
  | interrupt (c : TrapCause)
  deriving DecidableEq, Repr

namespace MemoryFault

def debugText (f : MemoryFault) : String :=
  Text.record "Fault" [("vector", f.cause.debugText), ("addr", f.addr.debugText),
    ("access", f.access.text), ("kind", f.kind.name), ("user", Text.flag f.user)]

end MemoryFault

namespace Exit

def faultKind (c : TrapCause) (a : Word) : FaultKind :=
  if !Canonical.isCanonical a then .nonCanonical
  else if c.isPageFault then .page
  else .access

/-- The exit that a trapped frame records. -/
def ofFrame (r : TrapFrame) : Exit :=
  let c := TrapCause.ofWord r.cause
  if c = .userEcall then .syscall
  else if c.isInterrupt then .interrupt c
  else match c.faultAccess with
    | none => .exception c
    | some access => .fault {
        cause := c
        addr := ⟨r.badAddr⟩
        access := access
        kind := faultKind c r.badAddr
        user := Sstatus.fromUser r.status }

/-- The address of a memory fault. -/
def faultAddr? : Exit → Option VirtualAddress
  | .fault f => some f.addr
  | _ => none

def debugText : Exit → String
  | .syscall => "Syscall"
  | .fault f => Text.wrapped "Fault" f.debugText
  | .exception c => Text.wrapped "Exception" c.debugText
  | .interrupt c => Text.wrapped "Interrupt" c.debugText

end Exit

end Sandbox
