import Sandbox.Hardware
import Sandbox.Kernel

/-! # CPUs

A CPU switches into the sandbox and back. Each switch binds a tag to the address
space, drops what this CPU may have cached under the tag for another owner, and
loads the root. The floating-point unit starts out off, so that its first use traps
back; only then is the context's file loaded, and only then is it saved at the end.
-/

namespace Sandbox

inductive Mode
  | supervisor | sandboxed
  deriving DecidableEq, Repr

namespace Mode

def name : Mode → String
  | .supervisor => "Supervisor"
  | .sandboxed => "Sandboxed"

end Mode

structure Cpu (μ : Type) where
  id : Nat
  machine : μ
  stackSize : Nat
  /-- Address of the trap vector. -/
  vectors : Word
  mode : Mode := .supervisor
  frame : TrapFrame := .zero
  /-- Root of the last switch. -/
  root : Option Word := none
  /-- Tag of the last switch. -/
  tag : Option Asid := none
  /-- The epoch at which this CPU last loaded each tag. -/
  epochs : Std.ExtTreeMap Asid Nat := {}
  /-- The floating-point registers hold the values of the context. -/
  fpDirty : Bool := false
  lastExit : Option Exit := none

/-- A sandboxed context: its registers and its floating-point file. -/
structure Context where
  registers : TrapFrame := .zero
  fp : FpFile := .zero
  deriving DecidableEq

/-- What one switch works on. -/
structure Switching (μ : Type) where
  cpu : Cpu μ
  context : Context
  tagging : Tagging

/-- Bytes of the largest block of memory. -/
def largestBlock : Nat := (BitVec.allOnes 63).toNat

namespace Cpu

variable {μ : Type}

/-- The epoch at which this CPU last loaded a tag. -/
def seen (c : Cpu μ) (t : Asid) : Option Nat :=
  c.epochs[t]?

/-- Note the epoch at which a tag is loaded. -/
def see (c : Cpu μ) (a : Assignment) : Cpu μ :=
  { c with epochs := c.epochs.insert a.tag a.epoch }

/-- Take a CPU online. Its number stays taken if there is no room for its stack. The address of the
trap vectors is taken as a word, that is, the machine is assumed to return it. -/
def start {A : Architecture} (id : Nat) (machine : μ) (vectors : Word) :
    Action (Kernel A) (Cpu μ) := do
  Kernel.register id
  let stackSize := (← Action.read).opts.stackSize
  if largestBlock < stackSize then
    Action.abort (.stackTooLarge stackSize)
  Action.log (.cpuStarted id vectors)
  return { id := id, machine := machine, stackSize := stackSize, vectors := vectors }

/-- Address of the last memory fault, if the last exit was one. -/
def faultAddr? (c : Cpu μ) : Option VirtualAddress :=
  c.lastExit.bind Exit.faultAddr?

def debugText (c : Cpu μ) : String :=
  Text.openRecord "Cpu" [("id", toString c.id), ("mode", c.mode.name),
    ("loaded_asid", Text.optional (c.tag.map fun t => toString t.toNat)),
    ("last_exit", Text.optional (c.lastExit.map Exit.debugText))]

end Cpu

namespace Switching

variable {μ : Type}

def updateCpu (f : Cpu μ → Cpu μ) : Action (Switching μ) Unit :=
  Action.update fun s => { s with cpu := f s.cpu }

def note (e : Event) : Action (Switching μ) Unit :=
  Action.update fun s =>
    { s with tagging.trace.events := s.tagging.trace.events.push e }

def onTagging {α : Type} (act : Action Tagging α) : Action (Switching μ) α :=
  Action.on Switching.tagging (fun t s => { s with tagging := t }) act

/-- Run a primitive of the CPU's machine. -/
def onMachine {α : Type} (act : MachineAction μ α) : Action (Switching μ) α := do
  let s ← Action.read
  match act s.cpu.machine with
  | .ok x m =>
    updateCpu fun c => { c with machine := m }
    return x
  | .error a m =>
    updateCpu fun c => { c with machine := m }
    Action.abort a

/-- The status with which a frame enters the sandbox. -/
def entryStatus (fp : Sstatus.FpStatus) (status : Word) : Word :=
  Sstatus.setFpStatus fp (Sstatus.sie.setFlag false (Sstatus.forUserEntry status))

/-- Prepare the frame for an entry. -/
def arm (fp : Sstatus.FpStatus) : Action (Switching μ) Unit :=
  updateCpu fun c =>
    { c with frame := c.frame.set TrapFrame.statusSlot (entryStatus fp c.frame.status) }

/-- Whether the last trap is the first use of the floating-point unit in this switch. -/
def isFirstFpUse (c : Cpu μ) : Bool :=
  !c.fpDirty && Sstatus.fpStatus c.frame.status == .off
    && TrapCause.ofWord c.frame.cause == .illegalInstruction

variable [Hardware μ]

/-- Bind a tag to a space, and drop what this CPU may have cached under it for another
owner or is asked to drop. -/
def prepareTag (owner : OwnerId) (flush : Bool) : Action (Switching μ) Asid := do
  let a ← onTagging (Tagging.assign owner)
  let c := (← Action.read).cpu
  updateCpu fun c => c.see a
  if flush ∨ c.seen a.tag ≠ some a.epoch then
    onTagging (Tagging.flush (.onCpu (some c.id)) a.tag)
  return a.tag

/-- Enter the sandbox until the next trap. -/
def enter (owner : OwnerId) (tag : Asid) (root : Word) : Action (Switching μ) Unit := do
  updateCpu fun c => { c with mode := .sandboxed }
  let c := (← Action.read).cpu
  note (.enter c.id owner tag root c.frame)
  let frame ← onMachine (Hardware.enter root c.frame)
  updateCpu fun c => { c with frame := frame, mode := .supervisor }

/-- Load the context's floating-point file and prepare the frame for another entry. -/
def loadFp : Action (Switching μ) Unit := do
  let s ← Action.read
  Action.log (.firstFpUse s.cpu.id s.cpu.frame.ip)
  note (.load s.cpu.id)
  onMachine (Hardware.load s.context.fp)
  updateCpu fun c => { c with fpDirty := true }
  arm .clean

/-- Save the floating-point registers into the context's file. -/
def saveFp : Action (Switching μ) Unit := do
  let s ← Action.read
  note (.save s.cpu.id)
  let fp ← onMachine (Hardware.save s.context.fp)
  Action.update fun s => { s with context.fp := fp }
  updateCpu fun c => { c with fpDirty := false }

/-- Enter the sandbox, and once more if the trap was the first floating-point use. A
second trap is never taken for a first use, since the registers are loaded by then. -/
def runSandbox (owner : OwnerId) (tag : Asid) (root : Word) : Action (Switching μ) Unit := do
  enter owner tag root
  if isFirstFpUse (← Action.read).cpu then
    loadFp
    enter owner tag root

/-- Write the trapped frame back to the context and read off why it trapped. The
program counter of a system call is moved past the call. -/
def leave : Action (Switching μ) Exit := do
  let c := (← Action.read).cpu
  let exit := Exit.ofFrame c.frame
  let registers :=
    if exit = .syscall then c.frame.set TrapFrame.epc (c.frame.ip + 4) else c.frame
  Action.update fun s => { s with context.registers := registers }
  Action.log (.leftSandbox c.id exit c.frame.ip)
  updateCpu fun c => { c with lastExit := some exit }
  return exit

/-- Run the context in an address space until it traps. -/
def run {A : Architecture} (space : AddressSpace A) (flush : Bool) :
    Action (Switching μ) Exit := do
  let c := (← Action.read).cpu
  if c.mode ≠ .supervisor then
    Action.abort (.alreadySandboxed c.id)
  let tag ← prepareTag space.owner flush
  let root ← space.rootWord ((← Action.read).tagging.owners.tag space.owner) (!flush)
  updateCpu fun c => { c with root := some root, tag := some tag }
  Action.update fun s => { s with cpu.frame := s.context.registers }
  arm .off
  runSandbox space.owner tag root
  if (← Action.read).cpu.fpDirty then
    saveFp
  leave

end Switching

end Sandbox
