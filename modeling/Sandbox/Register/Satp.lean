import Sandbox.Register.Layout

/-! # The `satp` register

The root of a RISC-V hart: the page number of the root table, the tag and the
paging mode.
-/

namespace Sandbox

namespace Satp

/-- The paging schemes. -/
inductive Mode
  | bare | sv39 | sv48 | sv57
  deriving DecidableEq, Repr

namespace Mode

def code : Mode → Word
  | .bare => 0
  | .sv39 => 8
  | .sv48 => 9
  | .sv57 => 10

/-- Codes without a scheme read as no paging. -/
def ofCode (c : BitVec 4) : Mode :=
  if c = 8 then .sv39 else if c = 9 then .sv48 else if c = 10 then .sv57 else .bare

def name : Mode → String
  | .bare => "Bare"
  | .sv39 => "Sv39"
  | .sv48 => "Sv48"
  | .sv57 => "Sv57"

def all : List Mode := [.bare, .sv39, .sv48, .sv57]

@[simp] theorem ofCode_code (m : Mode) : ofCode (m.code.setWidth 4) = m := by
  cases m <;> rfl

end Mode

def ppn : BitField := { offset := 0, width := 44 }
def asid : BitField := { offset := 44, width := 16 }
def mode : BitField := { offset := 60, width := 4 }

def layout : RegisterLayout where
  typeName := "Satp"
  fields := [
    { name := "ppn", field := ppn, reading := .word, hidden := true },
    { name := "asid", field := asid, reading := .number },
    { name := "mode", field := mode
      reading := .choice (Mode.all.map fun m => (m.code.toNat, m.name)) }]

/-- The word that selects the root table at `root`. -/
def ofRoot (root : PhysicalAddress) (tag : Asid) (m : Mode) : Except Abort Word := do
  require (root.isPageAligned) (.unalignedRoot root)
  let w ← ppn.store (root.word >>> 12) 0
  pure (mode.set (m.code.setWidth 4) (asid.set tag w))

def pagingMode (w : Word) : Mode :=
  .ofCode (mode.get w)

@[simp] theorem pagingMode_set (m : Mode) (w : Word) :
    pagingMode (mode.set (m.code.setWidth 4) w) = m :=
  (congrArg Mode.ofCode (BitField.get_set mode _ w)).trans (Mode.ofCode_code m)

/-- Physical address of the root table. -/
def root (w : Word) : PhysicalAddress :=
  ⟨ppn.word w <<< 12⟩

end Satp

end Sandbox
