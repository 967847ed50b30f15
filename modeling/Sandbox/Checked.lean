import Sandbox.Abort
import Sandbox.BitField
import Sandbox.Canonical

/-! # Checked operations

Operations on words and addresses whose preconditions are checked. A violated
precondition aborts, and nothing is stored.
-/

namespace Sandbox

/-- The value, or an abort if there is none. -/
def orAbort {α : Type} (o : Option α) (a : Abort) : Except Abort α :=
  match o with
  | some x => .ok x
  | none => .error a

/-- An abort unless a condition holds. -/
def require (p : Prop) [Decidable p] (a : Abort) : Except Abort Unit :=
  if p then .ok () else .error a

theorem require_eq_ok_iff {p : Prop} [Decidable p] {a : Abort} : require p a = .ok () ↔ p := by
  unfold require
  by_cases h : p <;> simp [h]

theorem require_bind_eq_ok_iff {α : Type} {p : Prop} [Decidable p] {a : Abort}
    {k : Unit → Except Abort α} {x : α} :
    (require p a >>= k) = .ok x ↔ p ∧ k () = .ok x := by
  unfold require
  by_cases h : p <;> simp [h, bind, Except.bind]

namespace Word

def add (a b : Word) : Except Abort Word :=
  orAbort (a.add? b) (.overflow .add)

def sub (a b : Word) : Except Abort Word :=
  orAbort (a.sub? b) (.overflow .sub)

def mul (a b : Word) : Except Abort Word :=
  orAbort (a.mul? b) (.overflow .mul)

end Word

namespace VirtualAddress

def add (a : VirtualAddress) (n : Word) : Except Abort VirtualAddress :=
  (Word.add a.word n).map .mk

end VirtualAddress

namespace PhysicalAddress

def add (a : PhysicalAddress) (n : Word) : Except Abort PhysicalAddress :=
  (Word.add a.word n).map .mk

end PhysicalAddress

namespace BitField

/-- The word with a new value in a field. -/
def store (f : BitField) (v w : Word) : Except Abort Word :=
  orAbort (f.set? v w) (.fieldOutOfBounds f.width)

end BitField

/-- `nextBlock` for a size that may be 0. -/
def nextBlockChecked (start size : Word) : Except Abort Word := do
  require (size ≠ 0) (.overflow .sub)
  pure (nextBlock start size)

/-- The root slot that starts at an address. -/
def rootSlot (a : Word) : Except Abort (Fin 512) := do
  require (a % Level.pgd.size = 0) (.unalignedRootSlot a)
  require (Canonical.isCanonical a) (.notCanonical a)
  pure (Level.pgd.maskedIndex a)

/-- Where a leaf puts an address that it covers. -/
def Mapping.physical (t : Mapping) (a : VirtualAddress) :
    Except Abort PhysicalAddress := do
  let offset ← Word.sub a.word t.virtualBase.word
  require (offset < t.size) (.outsideMapping a t)
  t.physicalBase.add offset

end Sandbox
