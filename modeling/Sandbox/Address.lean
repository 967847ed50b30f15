import Std.Data.ExtTreeMap
import Sandbox.Word
import Sandbox.Text

/-! # Addresses

Virtual and physical addresses are words of different kinds.
Physical addresses are ordered by their word, so that they can key a map.
-/

namespace Sandbox

/-- Bytes of one page, the unit of mapping. -/
def pageSize : Word := 0x1000

/-- An address as sandboxed code sees it. -/
structure VirtualAddress where
  word : Word
  deriving DecidableEq, Repr

/-- An address as the memory behind the page tree sees it. -/
structure PhysicalAddress where
  word : Word
  deriving DecidableEq, Repr

namespace VirtualAddress

/-- The first address of the page that holds this one. -/
def pageBase (a : VirtualAddress) : VirtualAddress :=
  ⟨a.word - a.word % pageSize⟩

def text (a : VirtualAddress) : String :=
  a.word.hexPadded

def debugText (a : VirtualAddress) : String :=
  Text.wrapped "VA" a.text

end VirtualAddress

namespace PhysicalAddress

def isPageAligned (a : PhysicalAddress) : Bool :=
  a.word % pageSize == 0

def text (a : PhysicalAddress) : String :=
  a.word.hexPadded

def debugText (a : PhysicalAddress) : String :=
  Text.wrapped "PA" a.text

instance : Inhabited PhysicalAddress := ⟨⟨0⟩⟩

instance : Ord PhysicalAddress := ⟨compareOn PhysicalAddress.word⟩

instance : Std.TransOrd PhysicalAddress :=
  inferInstanceAs (Std.TransCmp (compareOn PhysicalAddress.word))

instance : Std.LawfulEqOrd PhysicalAddress where
  eq_of_compare {a b} h := by
    have : a.word = b.word := Std.LawfulEqOrd.eq_of_compare (α := Word) h
    cases a; cases b; simp_all

end PhysicalAddress

end Sandbox
