import Sandbox.Entry.Codec
import Sandbox.Level

/-! # Entry arrays

One array of entries fills one page.
-/

namespace Sandbox

abbrev EntryArray := Vector Word 512

namespace EntryArray

/-- The array of invalid entries. -/
def zero : EntryArray := Vector.replicate 512 0

/-- The array with another word in a slot. -/
def put (t : EntryArray) (i : Fin 512) (w : Word) : EntryArray :=
  t.set i w

/-- Whether no entry is valid. -/
def isEmpty (c : EntryCodec) (t : EntryArray) : Bool :=
  t.all fun w => !c.isValid w

/-- Number of valid entries. -/
def validCount (c : EntryCodec) (t : EntryArray) : Nat :=
  t.countP fun w => c.isValid w

/-- A slot number that may be out of range. -/
def slot (i : Nat) : Except Abort (Fin 512) :=
  if h : i < 512 then .ok ⟨i, h⟩ else .error .indexOutOfBounds

/-- Ways to change one entry. -/
inductive Update
  | leaf (a : PhysicalAddress) (o : MapOptions)
  | table (a : PhysicalAddress)
  | clear
  /-- Copy the entry of another slot, by a number that may be out of range. -/
  | copy (source : Nat)
  | raw (w : Word)
  deriving DecidableEq, Repr

/-- The word that an update stores in a slot. -/
def updated (c : EntryCodec) (t : EntryArray) (i : Fin 512) : Update → Except Abort Word
  | .leaf a o => c.leaf a o
  | .table a => c.table (t.get i) a
  | .clear => .ok 0
  | .copy source => do return t.get (← slot source)
  | .raw w => .ok w

/-- Update one entry. -/
def update (c : EntryCodec) (t : EntryArray) (i : Fin 512) (u : Update) :
    Except Abort EntryArray := do
  return t.put i (← updated c t i u)

/-- The words that are not zero, with their slots. -/
def nonZero (t : EntryArray) : List (Nat × Word) :=
  (List.finRange 512).filterMap fun i => if t.get i = 0 then none else some (i.val, t.get i)

end EntryArray

end Sandbox
