import Std.Data.ExtTreeSet
import Sandbox.Action
import Sandbox.Entry.Array

/-! # Memory for entry arrays

Entry arrays are known by their physical address. An array is live from the
moment it is handed out until it is freed; freed arrays wait in a pool and are
handed out again, last in first out and zeroed, before fresh ones are taken. A
limit bounds the number of live arrays.
-/

namespace Sandbox

structure Memory where
  /-- Contents of the live and the pooled arrays. -/
  arrays : Std.ExtTreeMap PhysicalAddress EntryArray := {}
  live : Std.ExtTreeSet PhysicalAddress := {}
  /-- Freed arrays, the last one first. -/
  pool : List PhysicalAddress := []
  limit : Option Nat := none
  /-- Arrays handed out so far. This and the next number have no bound, in place of counters of the
  size of a word. -/
  allocations : Nat := 0
  /-- Arrays given back so far. -/
  frees : Nat := 0
  /-- Arrays taken fresh so far. -/
  fresh : Nat := 0
  /-- Address of the n-th fresh array. -/
  place : Nat → PhysicalAddress

namespace Memory

/-- Memory whose fresh arrays lie one after the other from `base` on. -/
def startingAt (base : Word) (limit : Option Nat) : Memory where
  limit := limit
  place n := ⟨base + BitVec.ofNat 64 n * pageSize⟩

/-- An array's contents; a missing array reads as invalid entries. -/
def array (m : Memory) (a : PhysicalAddress) : EntryArray :=
  m.arrays.getD a EntryArray.zero

def entry (m : Memory) (a : PhysicalAddress) (i : Fin 512) : Word :=
  (m.array a).get i

def setEntry (m : Memory) (a : PhysicalAddress) (i : Fin 512) (w : Word) : Memory :=
  { m with arrays := m.arrays.modify a fun t => t.put i w }

def liveCount (m : Memory) : Nat :=
  m.live.size

def limitReached (m : Memory) : Bool :=
  m.limit.any fun limit => decide (limit ≤ m.liveCount)

/-- The array that is handed out next. -/
def nextArray (m : Memory) : PhysicalAddress :=
  m.pool.headD (m.place m.fresh)

/-- Hand out the next array, zeroed. -/
def handOut (m : Memory) : Memory :=
  { m with
    arrays := m.arrays.insert m.nextArray EntryArray.zero
    live := m.live.insert m.nextArray
    pool := m.pool.tail
    allocations := m.allocations + 1
    fresh := if m.pool.isEmpty then m.fresh + 1 else m.fresh }

/-- Give an array back to the pool. -/
def giveBack (m : Memory) (a : PhysicalAddress) : Memory :=
  { m with live := m.live.erase a, pool := a :: m.pool, frees := m.frees + 1 }

/-- Forget the pooled arrays. -/
def drain (m : Memory) : Memory :=
  { m with arrays := m.pool.foldl (fun t a => t.erase a) m.arrays, pool := [] }

/-- An array of invalid entries, or nothing if the limit is reached. -/
def allocate? : Action Memory (Option PhysicalAddress) := do
  let m ← Action.read
  if m.limitReached then
    Action.log (.limitReached m.liveCount)
    return none
  let a := m.nextArray
  Action.update handOut
  return some a

def allocate : Action Memory PhysicalAddress := do
  match ← allocate? with
  | some a => return a
  | none => Action.refuse .outOfMemory

def free (a : PhysicalAddress) : Action Memory Unit := do
  if (← Action.read).live.contains a then
    Action.update fun m => m.giveBack a
  else
    Action.abort .notLive

/-- The live array that an entry refers to. -/
def resolve (a : PhysicalAddress) : Action Memory PhysicalAddress := do
  if (← Action.read).live.contains a then
    return a
  else if a.word = 0 then
    Action.abort .zeroTable
  else
    Action.abort (.noArray a)

def load (a : PhysicalAddress) (i : Fin 512) : Action Memory Word := do
  return (← Action.read).entry a i

def store (a : PhysicalAddress) (i : Fin 512) (w : Word) : Action Memory Unit :=
  Action.update fun m => m.setEntry a i w

/-- End of the memory's life: arrays that are still live are reported. -/
def close : Action Memory Unit := do
  let m ← Action.read
  if m.liveCount ≠ 0 then
    Action.log (.arraysLeft m.liveCount)

end Memory

end Sandbox
