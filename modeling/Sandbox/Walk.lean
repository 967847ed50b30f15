import Sandbox.Memory

/-! # Range walks

A walk shows a visitor every page slot of a range in ascending order. One cursor
is shared by all levels: a page moves it by one page, a missing subtree moves it
past the whole slot, and a deeper array moves it by its own walk. Missing arrays
are allocated on the way down if the visitor asks for them, and arrays left
without a valid entry are released on the way up.
-/

namespace Sandbox

/-- What a visitor does at one page. -/
structure Visit (α : Type) where
  /-- The new entry, if it changes. -/
  entry : Option Word := none
  result : α
  /-- Whether the walk goes on. -/
  proceed : Bool := true

structure Visitor (α : Type) where
  /-- Whether missing arrays are allocated; if not, only valid leaves are visited. -/
  allocates : Bool
  /-- Visit a page, given its address, its entry and the result so far. -/
  visit : Word → Word → α → Except Abort (Visit α)

/-- Progress of a walk. -/
structure Pass (α : Type) where
  /-- Next address to visit. -/
  cursor : Word
  result : α
  /-- Whether no visit has stopped the walk. -/
  running : Bool := true

namespace Walk

variable {α : Type}

/-- What a walk is about: the codec of the tree, the visitor, whether arrays that
become empty are released, and the end of the range. -/
structure Plan (α : Type) where
  codec : EntryCodec
  visitor : Visitor α
  reclaim : Bool
  stop : Word

/-- Visit the last `n` slots of an array in order, as long as the pass is running and
below the end of the range. -/
def slots (stop : Word) (visit : Fin 512 → Pass α → Action Memory (Pass α)) :
    Nat → Pass α → Action Memory (Pass α)
  | 0, p => pure p
  | n + 1, p => do
    if p.running ∧ p.cursor < stop then
      let p ← visit (Fin.ofNat 512 (511 - n)) p
      slots stop visit n p
    else
      pure p

/-- Visit one page slot. -/
def page (plan : Plan α) (array : PhysicalAddress) (i : Fin 512) (p : Pass α) :
    Action Memory (Pass α) := do
  let word ← Memory.load array i
  if plan.codec.isValid word ∨ plan.visitor.allocates then
    let visit ← plan.visitor.visit p.cursor word p.result
    match visit.entry with
    | some w => Memory.store array i w
    | none => pure ()
    if visit.proceed then
      return { p with cursor := ← Word.add p.cursor pageSize, result := visit.result }
    else
      return { p with result := visit.result, running := false }
  else
    return { p with cursor := ← Word.add p.cursor pageSize }

/-- Walk the array that an entry points to, and release it if it ends up empty. An
array that was allocated for this very walk is kept. -/
def descend (plan : Plan α) (child : Level)
    (walkChild : PhysicalAddress → Pass α → Action Memory (Pass α))
    (array : PhysicalAddress) (i : Fin 512) (word : Word) (allocated : Bool) (p : Pass α) :
    Action Memory (Pass α) := do
  let table ← Memory.resolve (plan.codec.address word)
  let p ← walkChild table p
  if p.running ∧ plan.reclaim ∧ ¬ allocated then
    if ((← Action.read).array table).isEmpty plan.codec then
      Memory.store array i 0
      Action.log (.arrayReleased child table)
      Memory.free table
  return p

/-- Visit one slot above the pages. -/
def slot (plan : Plan α) (level child : Level)
    (walkChild : PhysicalAddress → Pass α → Action Memory (Pass α))
    (array : PhysicalAddress) (i : Fin 512) (p : Pass α) : Action Memory (Pass α) := do
  let word ← Memory.load array i
  if plan.codec.isValid word then
    if plan.codec.isTable word then
      descend plan child walkChild array i word false p
    else
      Action.abort (.unexpectedLeaf level p.cursor)
  else if plan.visitor.allocates then
    let table ← Memory.allocate
    let word ← plan.codec.table word table
    Memory.store array i word
    Action.log (.arrayAllocated child table p.cursor)
    descend plan child walkChild array i word true p
  else
    return { p with cursor := nextBlock p.cursor level.size }

/-- Walk an array from the slot of the cursor on. -/
def array (plan : Plan α) : Level → PhysicalAddress → Pass α → Action Memory (Pass α) :=
  Level.ascend
    (fun table p => slots plan.stop (page plan table) (512 - Level.pte.index p.cursor) p)
    (fun level child walkChild table p =>
      slots plan.stop (slot plan level child walkChild table) (512 - level.index p.cursor) p)

/-- The ranges that can be walked. -/
def accept (start stop : Word) : Except Abort Unit := do
  require (start % pageSize = 0) (.unalignedStart start)
  require (start ≤ stop) (.reversedRange start stop)
  require (stop ≤ maxEnd) (.rangePastEnd stop)
  require (Canonical.isCanonicalRange start stop) (.rangeNotCanonical start stop)

/-- Walk `[start, stop)` in the tree at `root`. -/
def range (plan : Plan α) (root : PhysicalAddress) (start : Word) (result : α) :
    Action Memory α := do
  accept start plan.stop
  let p ← array plan .pgd root { cursor := start, result := result }
  return p.result

end Walk

end Sandbox
