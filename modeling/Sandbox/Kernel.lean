import Sandbox.AddressSpace
import Sandbox.CpuSet
import Sandbox.Tag.Assign

/-! # Kernels

What all CPUs of one supervisor share: its options, the pool of tags for sandboxed
spaces, and the set of CPUs that are online.
-/

namespace Sandbox

/-- Tag of the supervisor's own address space. -/
def kernelTag : Asid := 1

structure KernelOptions where
  maxCpus : Nat := 64
  /-- Bytes of each CPU's supervisor stack. -/
  stackSize : Nat := 16384
  firstTag : Asid := 2
  tags : Asid := 128
  deriving DecidableEq, Repr

namespace KernelOptions

def debugText (o : KernelOptions) : String :=
  Text.record "KernelOpts" [("max_cpus", toString o.maxCpus),
    ("stack_size", toString o.stackSize), ("asid_start", toString o.firstTag.toNat),
    ("asid_pool", toString o.tags.toNat)]

end KernelOptions

structure Kernel (A : Architecture) where
  opts : KernelOptions
  pool : TagPool
  online : CpuSet
  deriving DecidableEq, Repr

namespace Kernel

variable {A : Architecture}

/-- A kernel without CPUs. -/
def create (A : Architecture) (opts : KernelOptions) : Except Refusal (Kernel A) := do
  if opts.stackSize = 0 ∨ opts.stackSize % 16 ≠ 0 then
    throw (.invalidStackSize opts.stackSize)
  let pool ← TagPool.create opts.firstTag opts.tags A.tagLimit
  return { opts := opts, pool := pool, online := CpuSet.empty opts.maxCpus }

/-- The record of a kernel's creation. -/
def created (k : Kernel A) : LogRecord :=
  .kernelCreated A k.opts.maxCpus k.opts.firstTag.toNat k.opts.tags.toNat

/-- Number of CPUs online. -/
def cpus (k : Kernel A) : Nat :=
  k.online.size

/-- Take a CPU online. -/
def register (id : Nat) : Action (Kernel A) Unit := do
  let k ← Action.read
  if k.opts.maxCpus ≤ id then
    Action.refuse (.cpuOutOfRange id k.opts.maxCpus)
  if ← k.online.contains id then
    Action.refuse (.cpuOnline id)
  let online ← k.online.insert id
  Action.update fun k => { k with online := online }

/-- Take a CPU offline. -/
def unregister (id : Nat) : Action (Kernel A) Unit := do
  let online ← (← Action.read).online.erase id
  Action.update fun k => { k with online := online }

def debugText (k : Kernel A) : String :=
  Text.openRecord "Kernel" [("arch", Text.quoted A.name), ("opts", k.opts.debugText),
    ("cpus", toString k.cpus)]

end Kernel

end Sandbox
