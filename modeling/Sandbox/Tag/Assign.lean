import Sandbox.Tag.Pool

/-! # Assigning and releasing tags

An assignment first takes the tag from whoever held it, then flushes it if anything
may be cached under it, and binds it to its new owner last. Releasing a tag does not
flush it.
-/

namespace Sandbox

namespace Tagging

/-- Drop the mappings that are cached under a tag. -/
def flush (scope : FlushScope) (t : Asid) : Action Tagging Unit := do
  Action.update fun s =>
    { s with trace.events := s.trace.events.push (.flush scope t (s.owners.holders t)) }
  if t ∈ (← Action.read).trace.failing scope then
    Action.abort (.flushFailed t)

def modifyRecord (i : Nat) (f : TagRecord → TagRecord) : Action Tagging Unit :=
  Action.update fun s => { s with pool := s.pool.modify i f }

def bindSlot (o : OwnerId) (t : Asid) : Action Tagging Unit :=
  Action.update fun s => { s with owners := s.owners.bind o t }

/-- The record at a position of the pool. -/
def record (i : Nat) : Action Tagging TagRecord := do
  return (← Action.read).pool.records.getD i { tag := 0 }

/-- Take the tag of a record from its owner. -/
def unbind (i : Nat) : Action Tagging Unit := do
  let r ← record i
  match r.owner with
  | some o => bindSlot o 0
  | none => pure ()
  modifyRecord i fun r => { r with owner := none }

/-- Take back the tag that was assigned longest ago. -/
def evict : Action Tagging Nat := do
  let s ← Action.read
  let i := s.pool.oldest
  let r ← record i
  Action.log (.tagEvicted r.tag (r.liveOwner s.owners))
  unbind i
  return i

/-- Flush the tag of a record that may have cached mappings. The result is whether
it did. -/
def clean (i : Nat) : Action Tagging Bool := do
  let r ← record i
  if r.dirty then
    flush .everywhere r.tag
    modifyRecord i fun r => { r with epoch := r.epoch + 1 }
    Action.log (.tagFlushed r.tag (r.epoch + 1))
  return r.dirty

/-- Bind a tag to a live owner. -/
def assign (o : OwnerId) : Action Tagging Assignment := do
  Action.update fun s => { s with pool := { s.pool with clock := s.pool.clock + 1 } }
  let s ← Action.read
  let now := s.pool.clock
  match s.pool.held? s.owners o with
  | some i =>
    modifyRecord i fun r => { r with lastAssigned := now }
    let r ← record i
    bindSlot o r.tag
    return { tag := r.tag, epoch := r.epoch, reused := true, flushed := false }
  | none =>
    let i ← match s.pool.free? s.owners with
      | some i => pure i
      | none => evict
    modifyRecord i fun r => { r with owner := none }
    let flushed ← clean i
    modifyRecord i fun r => { r with owner := some o, dirty := true, lastAssigned := now }
    let r ← record i
    bindSlot o r.tag
    return { tag := r.tag, epoch := r.epoch, reused := false, flushed := flushed }

/-- Give the tag of an owner back to the pool. -/
def release (o : OwnerId) : Action Tagging (Option Asid) := do
  let s ← Action.read
  match s.pool.held? s.owners o with
  | some i =>
    let r ← record i
    unbind i
    return some r.tag
  | none =>
    Action.log (.unboundReleased o)
    return none

end Tagging

end Sandbox
