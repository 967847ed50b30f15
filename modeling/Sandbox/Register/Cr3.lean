import Sandbox.Register.Layout

/-! # The `CR3` register

The root of an x86-64 processor with process-context identifiers:
the base of the top table, the tag, and the wish to keep cached mappings.
-/

namespace Sandbox

namespace Cr3

def pcid : BitField := { offset := 0, width := 12 }
def base : BitField := { offset := 12, width := 40 }
def reserved : BitField := { offset := 52, width := 11 }
def noFlush : BitField := { offset := 63, width := 1 }

def layout : RegisterLayout where
  typeName := "Cr3"
  fields := [
    { name := "pcid", field := pcid, reading := .number },
    { name := "pml4_base_4k", field := base, reading := .word, hidden := true },
    { name := "reserved", field := reserved, reading := .number },
    { name := "no_flush", field := noFlush, reading := .flag }]

/-- The word that selects the top table at `root`. -/
def ofRoot (root : PhysicalAddress) (tag : Asid) (keep : Bool) : Except Abort Word := do
  require (root.isPageAligned) .unalignedTopTable
  require (tag < 4096) (.tagTooWide tag)
  let w ← pcid.store (tag.setWidth 64) 0
  let w ← base.store (root.word >>> 12) w
  pure (noFlush.setFlag keep w)

/-- Physical address of the top table. -/
def root (w : Word) : PhysicalAddress :=
  ⟨base.word w <<< 12⟩

end Cr3

end Sandbox
