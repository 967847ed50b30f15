import Sandbox.Walk.Visitors

/-! # Address spaces

An address space is a tree of entry arrays with an owner identity. It may share
the root slots from some address upwards with another space: those slots are
copies, and only the space that they come from changes what is below them. A
frozen space is never changed again.
-/

namespace Sandbox

/-- The space and the address from which root slots are shared. -/
structure SharedUpper where
  owner : OwnerId
  start : Word
  deriving DecidableEq, Repr

structure AddressSpace (A : Architecture) where
  owner : OwnerId
  root : PhysicalAddress
  upper : Option SharedUpper := none
  frozen : Bool := false
  deriving DecidableEq, Repr

namespace AddressSpace

variable {A : Architecture}

/-- An empty space with the given identity. -/
def create (A : Architecture) (owner : OwnerId) : Action Memory (AddressSpace A) := do
  let root ← Memory.allocate
  Action.log (.spaceCreated A owner root)
  return { owner := owner, root := root }

/-- Copy the slots from `first` on from one array to another. -/
def copySlots (source target : PhysicalAddress) (first : Fin 512) : Action Memory Unit :=
  Action.update fun m =>
    ((List.finRange 512).drop first).foldl (fun m i => m.setEntry target i (m.entry source i)) m

/-- A space that shares the root slots of `base` from `start` upwards. -/
def createAbove (base : AddressSpace A) (start : VirtualAddress) (owner : OwnerId) :
    Action Memory (AddressSpace A) := do
  let first ← rootSlot start.word
  let root ← Memory.allocate
  copySlots base.root root first
  Action.log (.spaceCreated A owner root)
  return { owner := owner, root := root, upper := some ⟨base.owner, start.word⟩ }

/-- No mutation is accepted any more. -/
def freeze (s : AddressSpace A) : AddressSpace A :=
  { s with frozen := true }

/-- The range of `length` bytes at `a`. -/
def bounds (a : VirtualAddress) (length : Word) : Except Abort (Word × Word) := do
  let stop ← orAbort (a.word.add? length) (.rangeOverflow a length)
  pure (a.word, stop)

/-- The range of `length` bytes at `a`, if the space may be changed there. -/
def mutableBounds (s : AddressSpace A) (a : VirtualAddress) (length : Word) :
    Except Abort (Word × Word) := do
  require (¬ s.frozen) (.frozen s.owner)
  let (start, stop) ← bounds a length
  match s.upper with
  | some u => require (stop ≤ u.start) (.reachesUpper start stop u.start)
  | none => pure ()
  pure (start, stop)

/-- Walk a range, releasing the arrays that become empty. -/
def change {α : Type} (s : AddressSpace A) (v : Visitor α) (start stop : Word) (result : α) :
    Action Memory α :=
  Walk.range ⟨A.codec, v, true, stop⟩ s.root start result

/-- Walk a range without changing anything. -/
def inspect {α : Type} (s : AddressSpace A) (v : Visitor α) (start stop : Word) (result : α) :
    Action Memory α :=
  Walk.range ⟨A.codec, v, false, stop⟩ s.root start result

/-- Clear the leaves of a range. The result is whether there were any. -/
def unmap (s : AddressSpace A) (a : VirtualAddress) (length : Word) : Action Memory Bool := do
  let (start, stop) ← s.mutableBounds a length
  s.change Visitor.unmap start stop false

/-- Map a range to the physical range of the same length at `physical`. The result is
whether a valid mapping was replaced by a different one. Without access the range
is unmapped. Running out of memory leaves the pages mapped so far in place. -/
def map (s : AddressSpace A) (a : VirtualAddress) (length : Word) (o : MapOptions)
    (physical : PhysicalAddress) : Action Memory Bool := do
  let (start, stop) ← s.mutableBounds a length
  if o.access.any then
    require (physical.word.toNat + (length.toNat - 1) ≤ (BitVec.allOnes 64).toNat)
      (.physicalOverflow physical length)
    s.change (Visitor.map A.codec start physical o.normalized) start stop false
  else
    s.unmap a length

/-- Change the options of the leaves of a range. The result is whether a leaf changed.
Without access the range is unmapped. -/
def protect (s : AddressSpace A) (a : VirtualAddress) (length : Word) (o : MapOptions) :
    Action Memory Bool := do
  let (start, stop) ← s.mutableBounds a length
  if o.access.any then
    s.change (Visitor.protect A.codec o.normalized) start stop false
  else
    s.unmap a length

/-- The mapping of the page that holds an address. -/
def lookup (s : AddressSpace A) (a : VirtualAddress) : Action Memory (Option Mapping) := do
  let start := a.pageBase.word
  match start.add? pageSize with
  | none => return none
  | some stop => s.inspect (Visitor.find A.codec) start stop none

/-- The first mapping in a list of ranges. -/
def findFirst (s : AddressSpace A) : List (Word × Word) → Action Memory (Option Mapping)
  | [] => pure none
  | (start, stop) :: rest => do
    match ← s.inspect (Visitor.find A.codec) start stop none with
    | some t => return some t
    | none => s.findFirst rest

/-- The first mapping at or above the page that holds an address. -/
def lookupFirst (s : AddressSpace A) (a : VirtualAddress) :
    Action Memory (Option Mapping) :=
  s.findFirst (Canonical.segments a.pageBase.word maxEnd)

/-- Whether no page of a range is mapped. -/
def isEmpty (s : AddressSpace A) (a : VirtualAddress) (length : Word) : Action Memory Bool := do
  let (start, stop) ← bounds a length
  return !(← s.inspect Visitor.occupied start stop false)

/-- Up to `n` mappings in ascending order, from an address on. -/
def scan (s : AddressSpace A) : Nat → VirtualAddress → Action Memory (List Mapping)
  | 0, _ => pure []
  | n + 1, a => do
    match ← s.lookupFirst a with
    | none => return []
    | some t =>
      let next ← t.virtualBase.add t.size
      return t :: (← s.scan n next)

/-- The words that are not zero in the tree below an array, each with its path, in depth
first order. Only live arrays are entered. -/
def wordsBelow (A : Architecture) (m : Memory) :
    Level → PhysicalAddress → List Nat → List (List Nat × Word) :=
  let words (below : Word → List Nat → List (List Nat × Word)) (a : PhysicalAddress)
      (path : List Nat) : List (List Nat × Word) :=
    (List.finRange 512).flatMap fun i =>
      let w := m.entry a i
      let path := path ++ [i.val]
      if w = 0 then [] else (path, w) :: below w path
  Level.ascend (words fun _ _ => []) fun _ _ child =>
    words fun w path =>
      let a := A.codec.address w
      if A.codec.isIntermediate w ∧ m.live.contains a then child a path else []

/-- The words of the tree that are not zero; there are none if the root is not live. -/
def words (s : AddressSpace A) (m : Memory) : List (List Nat × Word) :=
  if m.live.contains s.root then wordsBelow A m .pgd s.root [] else []

/-- Number of valid root slots, shared ones included. -/
def rootValidCount (s : AddressSpace A) (m : Memory) : Nat :=
  (m.array s.root).validCount A.codec

/-- The word that loads this space under a tag. -/
def rootWord (s : AddressSpace A) (tag : Asid) (keep : Bool) : Except Abort Word :=
  A.rootWord s.root tag keep

/-- Clear the slots from `first` on. -/
def clearSlots (target : PhysicalAddress) (first : Fin 512) : Action Memory Unit :=
  Action.update fun m =>
    ((List.finRange 512).drop first).foldl (fun m i => m.setEntry target i 0) m

/-- Unmap a list of ranges. -/
def clearRanges (s : AddressSpace A) : List (Word × Word) → Action Memory Unit
  | [] => pure ()
  | (start, stop) :: rest => do
    let _ ← s.change Visitor.unmap start stop false
    s.clearRanges rest

/-- Give back all arrays of the space. Shared root slots are dropped, and the arrays
below them stay with the space that they came from. -/
def teardown (s : AddressSpace A) : Action Memory Unit := do
  match s.upper with
  | none => s.clearRanges (Canonical.segments 0 maxEnd)
  | some u =>
    s.clearRanges (Canonical.segments 0 u.start)
    clearSlots s.root (← rootSlot u.start)
  if ((← Action.read).array s.root).isEmpty A.codec then
    Memory.free s.root
    Action.log (.spaceReleased s.owner)
  else
    Action.abort (.rootInUse s.owner)

def debugText (s : AddressSpace A) (tag : Asid) : String :=
  Text.openRecord "PageTables" [("arch", Text.quoted A.name), ("id", s.owner.debugText),
    ("root", s.root.debugText), ("asid", toString tag.toNat),
    ("shared_upper", Text.optional (s.upper.map fun u => u.owner.debugText)),
    ("read_only_shared", Text.flag s.frozen)]

end AddressSpace

end Sandbox
