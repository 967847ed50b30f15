import Sandbox.Architecture
import Sandbox.Owner
import Sandbox.Trap.Exit

/-! # Log records

What the supervisor reports about its own work, by severity.
-/

namespace Sandbox

inductive Severity
  | trace | debug | warn
  deriving DecidableEq, Repr

namespace Severity

def name : Severity → String
  | .trace => "trace"
  | .debug => "debug"
  | .warn => "warn"

def rank : Severity → Nat
  | .trace => 0
  | .debug => 1
  | .warn => 2

end Severity

inductive LogRecord
  | limitReached (live : Nat)
  | arrayAllocated (level : Level) (array : PhysicalAddress) (covering : Word)
  | arrayReleased (level : Level) (array : PhysicalAddress)
  | spaceCreated (architecture : Architecture) (owner : OwnerId) (root : PhysicalAddress)
  | spaceReleased (owner : OwnerId)
  | arraysLeft (live : Nat)
  | tagFlushed (asid : Asid) (epoch : Nat)
  | tagEvicted (asid : Asid) (owner : Option OwnerId)
  | unboundReleased (owner : OwnerId)
  | kernelCreated (architecture : Architecture) (maxCpus firstTag tags : Nat)
  | cpuStarted (cpu : Nat) (vectors : Word)
  | firstFpUse (cpu : Nat) (ip : Word)
  | leftSandbox (cpu : Nat) (exit : Exit) (ip : Word)
  deriving DecidableEq, Repr

namespace LogRecord

def severity : LogRecord → Severity
  | .limitReached _ | .arraysLeft _ | .unboundReleased _ => .warn
  | .tagFlushed .. | .tagEvicted .. | .kernelCreated .. | .cpuStarted .. => .debug
  | _ => .trace

def text : LogRecord → String
  | .limitReached live => s!"entry array limit of {live} reached"
  | .arrayAllocated level array covering =>
      s!"allocated {level.name} array at {array.text} for {covering.hex}"
  | .arrayReleased level array => s!"released empty {level.name} array at {array.text}"
  | .spaceCreated architecture owner root =>
      s!"{architecture.name} page tables {owner.debugText} with root at {root.text}"
  | .spaceReleased owner => s!"released page tables {owner.debugText}"
  | .arraysLeft live => s!"dropping allocator with {live} live entry arrays"
  | .tagFlushed asid epoch => s!"flushed ASID {asid.toNat} (epoch {epoch})"
  | .tagEvicted asid owner =>
      s!"evicting ASID {asid.toNat} from " ++ Text.optional (owner.map OwnerId.debugText)
  | .unboundReleased owner => s!"{owner.debugText} released without holding an ASID"
  | .kernelCreated architecture maxCpus firstTag tags =>
      s!"{architecture.name} kernel: {maxCpus} CPUs max, ASIDs {firstTag}..{firstTag + tags}"
  | .cpuStarted cpu vectors => s!"CPU {cpu}: stack top <addr>, vectors at {vectors.hex}"
  | .firstFpUse cpu ip => s!"CPU {cpu}: first FP use at {ip.hex}"
  | .leftSandbox cpu exit ip => s!"CPU {cpu}: {exit.debugText} at {ip.hex}"

end LogRecord

end Sandbox
