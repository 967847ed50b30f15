import Sandbox.Address

/-! # The two canonical halves

Bits 47 to 63 of a virtual address agree. This splits the address space into a
lower half and an upper half with a hole between them, and whole-space scans
step over the hole.
-/

namespace Sandbox

/-- Highest address of the lower half. -/
def lowerTop : Word := 0x00007fffffffffff

/-- Lowest address of the upper half. -/
def upperBottom : Word := 0xffff800000000000

/-- End of the highest range that can be walked; the last page of the address
space has no end address and is never walked. -/
def maxEnd : Word := 0xfffffffffffff000

namespace Canonical

def isCanonical (a : Word) : Bool :=
  decide (a ≤ lowerTop) || decide (upperBottom ≤ a)

/-- Whether all of `[start, stop)` is canonical; an empty range is judged by its start. -/
def isCanonicalRange (start stop : Word) : Bool :=
  if stop ≤ start then isCanonical start
  else decide (stop - 1 ≤ lowerTop) || decide (upperBottom ≤ start)

/-- The part of `[start, stop)` in the lower half, if there is one. -/
def lowerSegment (start stop : Word) : Option (Word × Word) :=
  if start ≤ lowerTop ∧ start < stop then
    some (start, if stop ≤ lowerTop then stop else lowerTop + 1)
  else none

/-- The part of `[start, stop)` in the upper half, if there is one. -/
def upperSegment (start stop : Word) : Option (Word × Word) :=
  let first := if start ≤ upperBottom then upperBottom else start
  if first < stop then some (first, stop) else none

/-- The canonical parts of `[start, stop)` in ascending order. -/
def segments (start stop : Word) : List (Word × Word) :=
  (lowerSegment start stop).toList ++ (upperSegment start stop).toList

end Canonical

def VirtualAddress.isCanonical (a : VirtualAddress) : Bool :=
  Canonical.isCanonical a.word

end Sandbox
