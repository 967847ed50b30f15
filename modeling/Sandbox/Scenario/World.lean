import Sandbox.Scenario.Command

/-! # Worlds

The objects of a scenario, each under its name and in the order of their creation,
together with the memory, the tag slots and the hardware that they share. A name can be
given again and then stands for the new object; CPUs stay with the kernel they were made
for, whatever its name stands for now.
-/

namespace Sandbox

namespace Scenario

/-- Objects under their names. -/
abbrev Named (α : Type) := List (String × α)

namespace Named

variable {α : Type}

/-- Replace the object of a name, or add it at the end. -/
def put (l : Named α) (name : String) (x : α) : Named α :=
  if l.any fun e => e.1 == name then
    l.map fun e => if e.1 == name then (name, x) else e
  else l ++ [(name, x)]

def remove (l : Named α) (name : String) : Named α :=
  l.filter fun e => e.1 != name

end Named

/-- A CPU and the number of its kernel. -/
structure Placed where
  kernel : Nat
  cpu : Cpu ScriptedMachine

structure World (A : Architecture) where
  memory : Memory
  owners : Owners := {}
  trace : Trace := {}
  arrays : Named PhysicalAddress := []
  slots : Named OwnerId := []
  spaces : Named (AddressSpace A) := []
  pools : Named TagPool := []
  /-- The kernels that were ever made, by number. -/
  kernels : Array (Kernel A) := #[]
  kernelNames : Named Nat := []
  cpus : Named Placed := []
  contexts : Named Context := []

namespace World

variable {A : Architecture} {α : Type}

/-- The names of all owners. -/
def ownerNames (w : World A) : List (OwnerId × String) :=
  (w.slots.map fun e => (e.2, e.1)) ++ (w.spaces.map fun e => (e.2.owner, e.1))

def nameOf (w : World A) (o : OwnerId) : String :=
  (w.ownerNames.lookup o).getD ""

/-- The owner of a slot or a space. -/
def owner? (w : World A) (name : String) : Option OwnerId :=
  (w.slots.lookup name).orElse fun _ => (w.spaces.lookup name).map AddressSpace.owner

/-- The kernel of a name and its number. -/
def kernel? (w : World A) (name : String) : Option (Nat × Kernel A) := do
  let n ← w.kernelNames.lookup name
  return (n, ← w.kernels[n]?)

def context (w : World A) (name : String) : Context :=
  (w.contexts.lookup name).getD {}

/-- An action on the memory. -/
def onMemory (act : Action Memory α) : Action (World A) α :=
  Action.on World.memory (fun m w => { w with memory := m }) act

/-- An action on a pool. -/
def onPool (name : String) (pool : TagPool) (act : Action Tagging α) : Action (World A) α :=
  Action.on (fun w => ⟨pool, w.owners, w.trace⟩)
    (fun t w => { w with
      pools := Named.put w.pools name t.pool, owners := t.owners, trace := t.trace }) act

/-- An action on a kernel's pool. -/
def onKernelPool (n : Nat) (k : Kernel A) (act : Action Tagging α) : Action (World A) α :=
  Action.on (fun w => ⟨k.pool, w.owners, w.trace⟩)
    (fun t w => { w with
      kernels := w.kernels.setIfInBounds n { k with pool := t.pool }
      owners := t.owners
      trace := t.trace }) act

/-- An action on a kernel's set of CPUs. -/
def onKernel (n : Nat) (k : Kernel A) (act : Action (Kernel A) α) : Action (World A) α :=
  Action.on (fun _ => k) (fun k w => { w with kernels := w.kernels.setIfInBounds n k }) act

/-- A switch of a CPU. -/
def onSwitch (cpuName contextName : String) (p : Placed) (k : Kernel A)
    (act : Action (Switching ScriptedMachine) α) : Action (World A) α :=
  Action.on (fun w => ⟨p.cpu, w.context contextName, ⟨k.pool, w.owners, w.trace⟩⟩)
    (fun s w => { w with
      cpus := Named.put w.cpus cpuName { p with cpu := s.cpu }
      contexts := Named.put w.contexts contextName s.context
      kernels := w.kernels.setIfInBounds p.kernel { k with pool := s.tagging.pool }
      owners := s.tagging.owners
      trace := s.tagging.trace }) act

/-- A flush that no pool and no CPU asked for. -/
def flushDirectly (scope : FlushScope) (t : Asid) : Action (World A) Unit :=
  Action.on (fun w => ⟨{ records := [] }, w.owners, w.trace⟩)
    (fun t w => { w with trace := t.trace }) (Tagging.flush scope t)

/-- Give a name to a new kernel. -/
def addKernel (name : String) (k : Kernel A) : Action (World A) Unit :=
  Action.update fun w =>
    { w with
      kernels := w.kernels.push k
      kernelNames := Named.put w.kernelNames name w.kernels.size }

/-- The end of the slot of a name, if there is one. -/
def dropSlot (name : String) : Action (World A) Unit :=
  Action.update fun w =>
    match w.slots.lookup name with
    | some o => { w with owners := w.owners.drop o, slots := Named.remove w.slots name }
    | none => w

/-- Make a new slot. -/
def addSlot (name : String) : Action (World A) (Answer A) := do
  dropSlot name
  let o := (← Action.read).owners.next
  Action.update fun w =>
    { w with owners := w.owners.create, slots := Named.put w.slots name o }
  return .number (some o.number)

/-- Make a new space, with an identity that is only used up if it comes into being. -/
def addSpace (name : String) (create : OwnerId → Action Memory (AddressSpace A)) :
    Action (World A) (Answer A) := do
  let s ← onMemory (create (← Action.read).owners.next)
  Action.update fun w =>
    { w with owners := w.owners.create, spaces := Named.put w.spaces name s }
  return .word s.root.word

/-- Tear a space down. Its name and its slot are gone even if the teardown aborts. -/
def dropSpace (name : String) (s : AddressSpace A) : Action (World A) (Except Stop Unit) := do
  let result ← Action.attempt (onMemory s.teardown)
  Action.update fun w =>
    { w with owners := w.owners.drop s.owner, spaces := Named.remove w.spaces name }
  return result

/-- The end of the CPU of a name, if there is one. -/
def dropCpu (name : String) : Action (World A) Unit := do
  let w ← Action.read
  if let some p := w.cpus.lookup name then
    if let some k := w.kernels[p.kernel]? then
      onKernel p.kernel k (Kernel.unregister p.cpu.id)
  Action.update fun w => { w with cpus := Named.remove w.cpus name }

/-- Drop spaces in the order of a list. The result names those whose teardown aborted. -/
def dropSpaces : Named (AddressSpace A) → Action (World A) (List (String × Stop))
  | [] => pure []
  | (name, s) :: rest => do
    let result ← dropSpace name s
    let others ← dropSpaces rest
    match result with
    | .ok _ => return others
    | .error e => return (name, e) :: others

end World

end Scenario

end Sandbox
