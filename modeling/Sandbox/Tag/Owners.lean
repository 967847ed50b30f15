import Sandbox.Owner
import Sandbox.Word

/-! # Tag slots

Every live owner has a slot that holds the tag bound to it, or 0. A pool writes the
slots of the owners it serves; when an owner is gone, so is its slot.
-/

namespace Sandbox

structure Owners where
  /-- Identity of the next owner. -/
  next : OwnerId := ⟨1⟩
  /-- Slots of the live owners. -/
  slots : Std.ExtTreeMap OwnerId Asid := {}

namespace Owners

/-- The slot of a live owner. -/
def tag? (s : Owners) (o : OwnerId) : Option Asid :=
  s.slots[o]?

/-- The tag bound to an owner, or 0. -/
def tag (s : Owners) (o : OwnerId) : Asid :=
  (s.tag? o).getD 0

def isLive (s : Owners) (o : OwnerId) : Bool :=
  s.slots.contains o

/-- The owner that comes next becomes live, with nothing bound to it. -/
def create (s : Owners) : Owners :=
  { next := ⟨s.next.number + 1⟩, slots := s.slots.insert s.next 0 }

def drop (s : Owners) (o : OwnerId) : Owners :=
  { s with slots := s.slots.erase o }

/-- Write the slot of a live owner. -/
def bind (s : Owners) (o : OwnerId) (t : Asid) : Owners :=
  { s with slots := s.slots.modify o fun _ => t }

/-- The live owners in the order of their creation. -/
def toList (s : Owners) : List (OwnerId × Asid) :=
  s.slots.toList

/-- The live owners whose slot holds a tag. -/
def holders (s : Owners) (t : Asid) : List OwnerId :=
  (s.toList.filter fun o => o.2 == t).map Prod.fst

end Owners

end Sandbox
