import Sandbox.Event

/-! # Tag pools

A pool lends a bounded range of tags to any number of owners. A tag stays with its
owner until it is released, the owner is gone, or an exhausted pool takes it from
the owner that was served longest ago. A tag under which mappings may be cached
is flushed everywhere before another owner gets it; each such flush starts a new
epoch of the tag.
-/

namespace Sandbox

structure TagRecord where
  tag : Asid
  owner : Option OwnerId := none
  /-- Flushes so far. This is a number without bound in place of a 64-bit counter. -/
  epoch : Nat := 0
  /-- Mappings may be cached since the last flush. -/
  dirty : Bool := false
  /-- Time of the last assignment. -/
  lastAssigned : Nat := 0
  deriving DecidableEq, Repr

structure TagPool where
  records : List TagRecord
  /-- Assignments so far. This is a number without bound in place of a 64-bit counter. -/
  clock : Nat := 0
  deriving DecidableEq, Repr

/-- The outcome of an assignment. -/
structure Assignment where
  tag : Asid
  epoch : Nat
  /-- The owner held the tag already. -/
  reused : Bool
  /-- The tag was flushed for this assignment. -/
  flushed : Bool
  deriving DecidableEq, Repr

/-- What an assignment works on: the pool, the slots of all owners, and the hardware. -/
structure Tagging where
  pool : TagPool
  owners : Owners
  trace : Trace := {}

namespace TagRecord

/-- The owner, if it is still live. -/
def liveOwner (r : TagRecord) (s : Owners) : Option OwnerId :=
  r.owner.filter s.isLive

end TagRecord

namespace TagPool

/-- The pool of `size` tags from `start` on, none of them above `limit`. -/
def create (start size limit : Asid) : Except Refusal TagPool :=
  if size = 0 then .error .emptyPool
  else if start = 0 then .error .reservedZero
  else if limit.toNat + 1 < start.toNat + size.toNat then
    .error (.rangeTooLarge start.toNat size.toNat limit.toNat)
  else .ok {
    records := (List.range size.toNat).map fun i => { tag := start + BitVec.ofNat 16 i } }

/-- Position of the record that an owner holds. -/
def held? (p : TagPool) (s : Owners) (o : OwnerId) : Option Nat :=
  p.records.findIdx? fun r => r.liveOwner s == some o

/-- Position of the first record without a live owner. -/
def free? (p : TagPool) (s : Owners) : Option Nat :=
  p.records.findIdx? fun r => r.liveOwner s == none

/-- Position of the record that was assigned longest ago, the first one if there are
several. -/
def oldest (p : TagPool) : Nat :=
  p.records.findIdx fun r => p.records.all fun r' => decide (r.lastAssigned ≤ r'.lastAssigned)

def modify (p : TagPool) (i : Nat) (f : TagRecord → TagRecord) : TagPool :=
  { p with records := p.records.modify i f }

/-- The tag that an owner holds. -/
def lookup (p : TagPool) (s : Owners) (o : OwnerId) : Option Asid :=
  (p.records.find? fun r => r.liveOwner s == some o).map TagRecord.tag

/-- Flushes of a tag so far. -/
def epoch (p : TagPool) (t : Asid) : Option Nat :=
  (p.records.find? fun r => r.tag == t).map TagRecord.epoch

/-- Number of tags that live owners hold. -/
def bound (p : TagPool) (s : Owners) : Nat :=
  p.records.countP fun r => (r.liveOwner s).isSome

def capacity (p : TagPool) : Nat :=
  p.records.length

end TagPool

end Sandbox
