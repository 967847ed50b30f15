import Sandbox.Register.Layout

/-! # The `TTBR0` register

The root of an ARMv8-A processor with a 4 KiB granule: bits 1 to 47
of the table base, and the tag in the top bits.
-/

namespace Sandbox

namespace Ttbr0

def cnp : BitField := { offset := 0, width := 1 }
def baddr : BitField := { offset := 1, width := 47 }
def asid : BitField := { offset := 48, width := 16 }

def layout : RegisterLayout where
  typeName := "Ttbr0"
  fields := [
    { name := "cnp", field := cnp, reading := .flag },
    { name := "baddr", field := baddr, reading := .word, hidden := true },
    { name := "asid", field := asid, reading := .number }]

/-- The word that selects the table at `root`. -/
def ofRoot (root : PhysicalAddress) (tag : Asid) : Except Abort Word := do
  require (root.isPageAligned) .unalignedBaseTable
  let w ← baddr.store (root.word >>> 1) 0
  pure (asid.set tag w)

/-- Physical address of the table. -/
def root (w : Word) : PhysicalAddress :=
  ⟨baddr.word w <<< 1⟩

end Ttbr0

end Sandbox
