import Sandbox.Scenario.World

/-! # Playing a scenario

Each command acts on the world and is answered by a report: the answer or the reason
why there is none, the counters of the memory, and the events and log records that
the command caused.
-/

namespace Sandbox

namespace Scenario

namespace World

variable {A : Architecture}

private def onSpace (w : World A) (name : String)
    (act : AddressSpace A → Action (World A) (Answer A)) : Action (World A) (Answer A) :=
  match w.spaces.lookup name with
  | some s => act s
  | none => pure (.unknown name)

private def onOwner (w : World A) (name : String)
    (act : OwnerId → Action (World A) (Answer A)) : Action (World A) (Answer A) :=
  match w.owner? name with
  | some o => act o
  | none => pure (.unknown name)

private def withPool (w : World A) (name : String)
    (act : TagPool → Action (World A) (Answer A)) : Action (World A) (Answer A) :=
  match w.pools.lookup name with
  | some p => act p
  | none => pure (.unknown name)

private def withKernel (w : World A) (name : String)
    (act : Nat → Kernel A → Action (World A) (Answer A)) : Action (World A) (Answer A) :=
  match w.kernel? name with
  | some (n, k) => act n k
  | none => pure (.unknown name)

private def withCpu (w : World A) (name : String)
    (act : Placed → Action (World A) (Answer A)) : Action (World A) (Answer A) :=
  match w.cpus.lookup name with
  | some c => act c
  | none => pure (.unknown name)

private def withArray (w : World A) (name : String)
    (act : PhysicalAddress → Action (World A) (Answer A)) : Action (World A) (Answer A) :=
  match w.arrays.lookup name with
  | some a => act a
  | none => pure (.unknown name)

/-- Commands on arrays. -/
def stepArray (w : World A) : ArrayCommand → Action (World A) (Answer A)
  | .create name => do
    match ← onMemory Memory.allocate? with
    | none => return .none
    | some a =>
      Action.update fun w => { w with arrays := Named.put w.arrays name a }
      return .array a (((← Action.read).memory.array a).isEmpty A.codec)
  | .free name => w.withArray name fun a => do
    onMemory (Memory.free a)
    return .none
  | .drainPool => do
    Action.update fun w => { w with memory := w.memory.drain }
    return .none
  | .verify name => w.withArray name fun _ => return .verified
  | .poke array i raw =>
    let write (a : PhysicalAddress) : Action (World A) (Answer A) := do
      let i ← EntryArray.slot i
      onMemory (Memory.store a i raw)
      return .entry ((← Action.read).memory.entry a i)
    match array with
    | .named name => w.withArray name write
    | .at a => do write (← onMemory (Memory.resolve a))

/-- Commands on address spaces. -/
def stepSpace (w : World A) : SpaceCommand → Action (World A) (Answer A)
  | .create name => addSpace name (AddressSpace.create A)
  | .createAbove name base start => w.onSpace base fun s =>
    addSpace name (s.createAbove start)
  | .map space a length opts physical => w.onSpace space fun s => do
    return .flag (← onMemory (s.map a length opts physical))
  | .unmap space a length => w.onSpace space fun s => do
    return .flag (← onMemory (s.unmap a length))
  | .protect space a length opts => w.onSpace space fun s => do
    return .flag (← onMemory (s.protect a length opts))
  | .isEmpty space a length => w.onSpace space fun s => do
    return .flag (← onMemory (s.isEmpty a length))
  | .freeze space => w.onSpace space fun s => do
    Action.update fun w => { w with spaces := Named.put w.spaces space s.freeze }
    return .none
  | .lookup space a placed => w.onSpace space fun s => do
    match ← onMemory (s.lookup a), placed with
    | some t, some b => return .located t (t.physical b)
    | t, _ => return .mapping t
  | .lookupFirst space a => w.onSpace space fun s => do
    return .mapping (← onMemory (s.lookupFirst a))
  | .scan space a max => w.onSpace space fun s => do
    return .mappings (← onMemory (s.scan max a))
  | .rootWord space keep => w.onSpace space fun s => do
    return .word (← s.rootWord (w.owners.tag s.owner) keep)
  | .describe space => w.onSpace space fun s =>
    return .space s (w.owners.tag s.owner) (s.rootValidCount w.memory)
  | .dump space => w.onSpace space fun s =>
    return .words (s.words w.memory)
  | .drop space => w.onSpace space fun s => do
    match ← dropSpace space s with
    | .ok _ => return .none
    | .error e => throw e

/-- Commands on slots, pools and flushes. -/
def stepTag (w : World A) : TagCommand → Action (World A) (Answer A)
  | .createSlot name => addSlot name
  | .dropSlot name => do
    dropSlot name
    return .none
  | .slotTag name => w.onOwner name fun o =>
    return .number (some (w.owners.tag o).toNat)
  | .listOwners =>
    return .owners (w.owners.toList.map fun o => (w.nameOf o.1, o.2))
  | .createPool name start size limit =>
    match TagPool.create start size limit with
    | .ok p => do
      Action.update fun w => { w with pools := Named.put w.pools name p }
      return .number (some p.capacity)
    | .error r => Action.refuse r
  | .assign pool owner => w.withPool pool fun p => w.onOwner owner fun o => do
    return .assignment (← onPool pool p (Tagging.assign o))
  | .release pool owner => w.withPool pool fun p => w.onOwner owner fun o => do
    return .number ((← onPool pool p (Tagging.release o)).map BitVec.toNat)
  | .lookup pool owner => w.withPool pool fun p => w.onOwner owner fun o =>
    return .number ((p.lookup w.owners o).map BitVec.toNat)
  | .epoch pool t => w.withPool pool fun p =>
    return .number (p.epoch t)
  | .bound pool => w.withPool pool fun p =>
    return .bound (p.bound w.owners) p.capacity
  | .failFlush t => do
    Action.update fun w => { w with trace.failing := fun scope => t :: w.trace.failing scope }
    return .none
  | .healFlush t => do
    Action.update fun w =>
      { w with trace.failing := fun scope => (w.trace.failing scope).filter (· != t) }
    return .none
  | .flush scope t => do
    flushDirectly scope t
    return .none

/-- Commands on kernels. -/
def stepKernel (w : World A) : KernelCommand → Action (World A) (Answer A)
  | .create name opts =>
    match Kernel.create A opts with
    | .ok k => do
      Action.log k.created
      addKernel name k
      return .text k.debugText
    | .error r => Action.refuse r
  | .assign kernel space => w.withKernel kernel fun n k => w.onSpace space fun s => do
    return .assignment (← onKernelPool n k (Tagging.assign s.owner))
  | .release kernel space => w.withKernel kernel fun n k => w.onSpace space fun s => do
    let bound ← onKernelPool n k do
      let _ ← Tagging.release s.owner
      let t ← Action.read
      return t.pool.bound t.owners
    return .number (some bound)
  | .epoch kernel t => w.withKernel kernel fun _ k =>
    return .number (k.pool.epoch t)
  | .describe kernel => w.withKernel kernel fun _ k =>
    return .kernel k (k.pool.bound w.owners)

/-- Commands on CPUs and contexts. -/
def stepCpu (w : World A) : CpuCommand → Action (World A) (Answer A)
  | .create name kernel id vectors => w.withKernel kernel fun n k => do
    let (c, cpus) ← onKernel n k do
      let c ← Cpu.start id ({} : ScriptedMachine) vectors
      return (c, (← Action.read).cpus)
    dropCpu name
    Action.update fun w => { w with cpus := Named.put w.cpus name ⟨n, c⟩ }
    return .cpuStarted c cpus
  | .drop cpu => do
    dropCpu cpu
    return .none
  | .writeRegister context place value => do
    let c := w.context context
    Action.update fun w => { w with contexts := Named.put w.contexts context c }
    let r ← c.registers.write value place
    Action.update fun w =>
      { w with contexts := Named.put w.contexts context { c with registers := r } }
    return .frame r
  | .writeFp context i value => do
    let c := w.context context
    Action.update fun w => { w with contexts := Named.put w.contexts context c }
    let s ← c.fp.setF i value
    Action.update fun w =>
      { w with contexts := Named.put w.contexts context { c with fp := s } }
    return .fp s
  | .writeFcsr context value => do
    let c := w.context context
    let s := c.fp.setFcsr value
    Action.update fun w =>
      { w with contexts := Named.put w.contexts context { c with fp := s } }
    return .fp s
  | .view context => return .view (w.context context).registers
  | .fork context name => do
    Action.update fun w =>
      { w with contexts := Named.put w.contexts name (w.context context) }
    return .none
  | .writeMachineFp cpu i value => w.withCpu cpu fun p => do
    let s ← p.cpu.machine.fp.setF i value
    let p := { p with cpu.machine.fp := s }
    Action.update fun w => { w with cpus := Named.put w.cpus cpu p }
    return .fp s
  | .run cpu space context flush script => w.withCpu cpu fun p => w.onSpace space fun s =>
    match w.kernels[p.kernel]? with
    | none => pure (.unknown cpu)
    | some k => do
      let p := { p with cpu.machine.script := p.cpu.machine.script ++ script }
      let result ← Action.attempt (onSwitch cpu context p k (Switching.run s flush))
      let w ← Action.read
      let c := ((w.cpus.lookup cpu).getD p).cpu
      return .run result (w.context context) (w.owners.tag s.owner) c
  | .describe cpu => w.withCpu cpu fun p => return .cpu p.cpu
  | .debug cpu => w.withCpu cpu fun p => return .text p.cpu.debugText

/-- Carry out a command. -/
def step (c : Command) : Action (World A) (Answer A) := do
  let w ← Action.read
  match c with
  | .array c => w.stepArray c
  | .space c => w.stepSpace c
  | .tag c => w.stepTag c
  | .kernel c => w.stepKernel c
  | .cpu c => w.stepCpu c

/-- End of the scenario: the CPUs go first, then the spaces from the newest to the
oldest. The result names the spaces whose teardown aborted. -/
def finish : Action (World A) (List (String × Stop)) := do
  for (name, _) in (← Action.read).cpus do
    dropCpu name
  dropSpaces (← Action.read).spaces.reverse

end World

/-- Counters of the memory. -/
structure Counters where
  allocations : Nat
  frees : Nat
  live : Nat
  deriving DecidableEq, Repr

/-- What one command brought about. Owners of tags appear in the events by identity and
are named by `names`. -/
structure Report (α : Type) where
  result : Except Stop α
  counters : Counters
  events : List Event
  names : List (OwnerId × String)
  log : List LogRecord

/-- Run an action of a world and report what it brought about. -/
def report {A : Architecture} {α : Type} (act : Action (World A) α) (w : World A) :
    Report α × World A :=
  let w := { w with trace.events := #[] }
  let ending (result : Except Stop α) (s : Logged (World A)) : Report α × World A :=
    let w := s.state
    ({ result := result
       counters := ⟨w.memory.allocations, w.memory.frees, w.memory.liveCount⟩
       events := w.trace.events.toList
       names := w.ownerNames
       log := s.log.toList }, w)
  match act ⟨w, #[]⟩ with
  | .ok x s => ending (.ok x) s
  | .error e s => ending (.error e) s

/-- What a whole scenario brought about: a report for each command, the report of the
end, and what the memory logs when it goes. -/
structure Outcome (A : Architecture) where
  steps : List (Report (Answer A))
  finish : Report (List (String × Stop))
  closing : List LogRecord

/-- Play commands one after the other. -/
def playAll {A : Architecture} : List Command → World A → List (Report (Answer A)) × World A
  | [], w => ([], w)
  | c :: rest, w =>
    let (r, w) := report (World.step c) w
    let (rs, w) := playAll rest w
    (r :: rs, w)

/-- Play a scenario in fresh memory whose arrays lie from `base` on. -/
def play (A : Architecture) (base : Word) (limit : Option Nat) (commands : List Command) :
    Outcome A :=
  let (steps, w) := playAll commands { memory := Memory.startingAt base limit }
  let (finish, w) := report (A := A) World.finish w
  let closing := match Memory.close ⟨w.memory, #[]⟩ with
    | .ok _ s => s.log.toList
    | .error _ s => s.log.toList
  { steps := steps, finish := finish, closing := closing }

end Scenario

end Sandbox
