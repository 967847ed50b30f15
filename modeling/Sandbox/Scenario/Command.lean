import Sandbox.Cpu
import Sandbox.ScriptedMachine

/-! # Commands of a scenario

A scenario is a list of commands on named objects: arrays, spaces, slots, pools,
kernels, CPUs and contexts. Each command has an answer.
-/

namespace Sandbox

namespace Scenario

/-- An array, by its name or by its address. -/
inductive ArrayRef
  | named (name : String)
  | at (a : PhysicalAddress)
  deriving DecidableEq, Repr

/-- Commands on entry arrays. -/
inductive ArrayCommand
  | create (name : String)
  | free (name : String)
  | drainPool
  /-- Check that an array is where its address says, which freeing it does not change. -/
  | verify (name : String)
  /-- Write an entry of an array behind everybody's back. -/
  | poke (array : ArrayRef) (i : Nat) (raw : Word)

/-- Commands on address spaces. -/
inductive SpaceCommand
  | create (name : String)
  | createAbove (name base : String) (start : VirtualAddress)
  | map (space : String) (a : VirtualAddress) (length : Word) (opts : MapOptions)
      (physical : PhysicalAddress)
  | unmap (space : String) (a : VirtualAddress) (length : Word)
  | protect (space : String) (a : VirtualAddress) (length : Word) (opts : MapOptions)
  | isEmpty (space : String) (a : VirtualAddress) (length : Word)
  | freeze (space : String)
  /-- Look an address up, and place a second one if there is one. -/
  | lookup (space : String) (a : VirtualAddress) (placed : Option VirtualAddress)
  | lookupFirst (space : String) (a : VirtualAddress)
  | scan (space : String) (a : VirtualAddress) (max : Nat)
  | rootWord (space : String) (keep : Bool)
  | describe (space : String)
  | dump (space : String)
  | drop (space : String)

/-- Commands on tag slots, pools and flushes. -/
inductive TagCommand
  | createSlot (name : String)
  | dropSlot (owner : String)
  | slotTag (owner : String)
  | listOwners
  | createPool (name : String) (start size limit : Asid)
  | assign (pool owner : String)
  | release (pool owner : String)
  | lookup (pool owner : String)
  | epoch (pool : String) (tag : Asid)
  | bound (pool : String)
  /-- Make every later flush of a tag fail. -/
  | failFlush (tag : Asid)
  | healFlush (tag : Asid)
  | flush (scope : FlushScope) (tag : Asid)

/-- Commands on kernels. -/
inductive KernelCommand
  | create (name : String) (opts : KernelOptions)
  | assign (kernel space : String)
  | release (kernel space : String)
  | epoch (kernel : String) (tag : Asid)
  | describe (kernel : String)

/-- Commands on CPUs and the contexts that they run. -/
inductive CpuCommand
  | create (name kernel : String) (id : Nat) (vectors : Word)
  | drop (cpu : String)
  | writeRegister (context : String) (place : TrapFrame.Place) (value : Word)
  | writeFp (context : String) (i value : Word)
  | writeFcsr (context : String) (value : BitVec 32)
  | view (context : String)
  | fork (context name : String)
  /-- Write a floating-point register of the machine itself. -/
  | writeMachineFp (cpu : String) (i value : Word)
  | run (cpu space context : String) (flush : Bool) (script : List MachineStep)
  | describe (cpu : String)
  | debug (cpu : String)

inductive Command
  | array (c : ArrayCommand)
  | space (c : SpaceCommand)
  | tag (c : TagCommand)
  | kernel (c : KernelCommand)
  | cpu (c : CpuCommand)

inductive Answer (A : Architecture)
  | none
  | flag (b : Bool)
  | number (n : Option Nat)
  | word (w : Word)
  | text (s : String)
  | array (a : PhysicalAddress) (isEmpty : Bool)
  | verified
  /-- An entry's word. -/
  | entry (w : Word)
  | mapping (t : Option Mapping)
  | located (t : Mapping) (a : Except Abort PhysicalAddress)
  | mappings (ts : List Mapping)
  | space (s : AddressSpace A) (tag : Asid) (rootValid : Nat)
  | words (ws : List (List Nat × Word))
  | owners (os : List (String × Asid))
  | assignment (a : Assignment)
  | bound (bound capacity : Nat)
  | kernel (k : Kernel A) (bound : Nat)
  | cpuStarted (c : Cpu ScriptedMachine) (cpus : Nat)
  | frame (r : TrapFrame)
  | fp (s : FpFile)
  | view (r : TrapFrame)
  | cpu (c : Cpu ScriptedMachine)
  | run (result : Except Stop Exit) (context : Context) (spaceTag : Asid)
      (c : Cpu ScriptedMachine)
  /-- There is no object of this name. -/
  | unknown (name : String)

end Scenario

end Sandbox
