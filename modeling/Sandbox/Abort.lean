import Sandbox.Level
import Sandbox.Mapping
import Sandbox.Owner

/-! # Ways to stop

An operation stops with a refusal, which its caller may recover from, or with an
abort, which only a defect of the caller or of the machine brings about. All
wording is in the two functions called `message`.
-/

namespace Sandbox

/-- A failure that is reported to the caller. -/
inductive Refusal
  | outOfMemory
  | rangeTooLarge (start size limit : Nat)
  | emptyPool
  | reservedZero
  | invalidStackSize (size : Nat)
  | cpuOutOfRange (id max : Nat)
  | cpuOnline (id : Nat)
  deriving DecidableEq, Repr

namespace Refusal

def message : Refusal → String
  | .outOfMemory => "out of memory (entry array)"
  | .rangeTooLarge start size limit =>
      s!"ASID range {start}..{start}+{size} exceeds the limit of {limit}"
  | .emptyPool => "ASID pool is empty"
  | .reservedZero => "ASID 0 is never handed out"
  | .invalidStackSize size => s!"stack size {size} is not a non-zero multiple of 16"
  | .cpuOutOfRange id max => s!"CPU {id} exceeds the limit of {max} CPUs"
  | .cpuOnline id => s!"CPU {id} is already online"

end Refusal

/-- A violated precondition, or a failure of the machine. -/
inductive Abort
  /-- Checked arithmetic left the range of a word. -/
  | overflow (op : Arithmetic)
  | indexOutOfBounds
  /-- A value does not fit a field of this width. -/
  | fieldOutOfBounds (width : Nat)
  | unalignedFrame (a : PhysicalAddress)
  /-- A table would replace an entry that is in use. -/
  | entryInUse
  | unalignedRoot (a : PhysicalAddress)
  | unalignedTopTable
  | unalignedBaseTable
  | tagTooWide (asid : Asid)
  | unalignedRootSlot (a : Word)
  | notCanonical (a : Word)
  | unalignedStart (start : Word)
  | reversedRange (start stop : Word)
  | rangePastEnd (stop : Word)
  | rangeNotCanonical (start stop : Word)
  | rangeOverflow (a : VirtualAddress) (length : Word)
  | physicalOverflow (a : PhysicalAddress) (length : Word)
  /-- Frozen address spaces are never changed. -/
  | frozen (owner : OwnerId)
  /-- The range reaches into root slots that another address space owns. -/
  | reachesUpper (start stop upper : Word)
  | unexpectedLeaf (level : Level) (a : Word)
  | zeroTable
  | noArray (a : PhysicalAddress)
  | notLive
  | rootInUse (owner : OwnerId)
  | outsideMapping (a : VirtualAddress) (t : Mapping)
  | alreadySandboxed (cpu : Nat)
  /-- No block of memory is as large as this stack. -/
  | stackTooLarge (size : Nat)
  | flushFailed (asid : Asid)
  | machineCrashed
  | scriptExhausted
  deriving DecidableEq, Repr

namespace Abort

def message : Abort → String
  | .overflow .add => "attempt to add with overflow"
  | .overflow .sub => "attempt to subtract with overflow"
  | .overflow .mul => "attempt to multiply with overflow"
  | .indexOutOfBounds => "index out of bounds"
  | .fieldOutOfBounds width => s!"value out of bounds [0, {(BitVec.allOnes width).toNat}]"
  | .unalignedFrame a => s!"physical address {a.text} is not 4K-aligned"
  | .entryInUse => "set_intermediate on a valid entry"
  | .unalignedRoot a => s!"root table {a.word.hex} is not 4K-aligned"
  | .unalignedTopTable => "PML4 base must be 4K-aligned"
  | .unalignedBaseTable => "table base must be 4K-aligned"
  | .tagTooWide asid => s!"PCID {asid.toNat} exceeds 12 bits"
  | .unalignedRootSlot a => s!"address {a.hex} is not aligned to a root slot"
  | .notCanonical a => s!"address {a.hex} is not canonical"
  | .unalignedStart start => s!"unaligned range start {start.hex}"
  | .reversedRange start stop => s!"range end {stop.hex} precedes start {start.hex}"
  | .rangePastEnd stop => s!"range end {stop.hex} is past the last walkable page"
  | .rangeNotCanonical start stop => s!"range [{start.hex}, {stop.hex}) is not canonical"
  | .rangeOverflow a length => s!"range at {a.text} with length {length.hex} overflows"
  | .physicalOverflow a length =>
      s!"physical range at {a.text} with length {length.hex} overflows"
  | .frozen owner => s!"mutating read-only shared page tables {owner.debugText}"
  | .reachesUpper start stop upper =>
      s!"range [{start.hex}, {stop.hex}) reaches the shared upper half at {upper.hex}"
  | .unexpectedLeaf level a => s!"unexpected leaf at {level.name} level covering {a.hex}"
  | .zeroTable => "intermediate entry points at physical address zero"
  | .noArray a => s!"no array at {a.text}"
  | .notLive => "freeing entry array <addr> that is not live"
  | .rootInUse owner => s!"root of {owner.debugText} not empty on teardown"
  | .outsideMapping a t => s!"{a.text} lies outside {t.debugText}"
  | .alreadySandboxed cpu => s!"CPU {cpu} is already in sandboxed mode"
  | .stackTooLarge _ => "capacity overflow"
  | .flushFailed asid => s!"flush of {asid.toNat} failed"
  | .machineCrashed => "machine crashed"
  | .scriptExhausted => "script exhausted"

end Abort

/-- Why an operation did not return. -/
inductive Stop
  | refusal (r : Refusal)
  | abort (a : Abort)
  deriving DecidableEq, Repr

namespace Stop

def message : Stop → String
  | .refusal r => r.message
  | .abort a => a.message

end Stop

end Sandbox
