import Sandbox.Checked

/-! # Entry codecs

One entry of a page tree is a word. It is invalid, or a leaf that maps one
page, or a pointer to a deeper array. A codec says how an architecture spells the
three; leaves and pointers are composed the same way for all of them, from their
option bits and the frame number of an aligned address.
-/

namespace Sandbox

structure EntryCodec where
  /-- Bits that carry options, as opposed to the address. -/
  optionMask : Word
  isValid : Word → Bool
  /-- Whether a valid entry points at a deeper array. -/
  isTable : Word → Bool
  /-- Field of the frame number. -/
  frame : BitField
  /-- Options of a valid leaf. -/
  options : Word → MapOptions
  /-- Option bits of a leaf with some access. -/
  leafBits : MapOptions → Word
  /-- Option bits of a pointer to a deeper array. -/
  tableBits : Word

namespace EntryCodec

/-- Address that an entry refers to. -/
def address (c : EntryCodec) (w : Word) : PhysicalAddress :=
  ⟨c.frame.word w <<< 12⟩

/-- Whether an entry is valid and points at a deeper array. -/
def isIntermediate (c : EntryCodec) (w : Word) : Bool :=
  c.isValid w && c.isTable w

/-- The option bits `bits` together with the frame of `a`. -/
def compose (c : EntryCodec) (a : PhysicalAddress) (bits : Word) : Except Abort Word :=
  c.frame.store (a.word >>> 12) bits

/-- The option bits of a leaf, if there is any access. -/
def bits? (c : EntryCodec) (o : MapOptions) : Option Word :=
  if o.access.any then some (c.leafBits o) else none

/-- The leaf that maps to `a` with given option bits; without bits it is the invalid
entry. -/
def leafWith (c : EntryCodec) (bits : Option Word) (a : PhysicalAddress) : Except Abort Word := do
  require (a.isPageAligned) (.unalignedFrame a)
  match bits with
  | some b => c.compose a b
  | none => pure 0

/-- The leaf that maps to `a`; without access it is the invalid entry. -/
def leaf (c : EntryCodec) (a : PhysicalAddress) (o : MapOptions) : Except Abort Word :=
  c.leafWith (c.bits? o) a

/-- The pointer to the array at `a` that replaces an invalid entry. -/
def table (c : EntryCodec) (old : Word) (a : PhysicalAddress) : Except Abort Word := do
  require (¬ c.isValid old) .entryInUse
  require (a.isPageAligned) (.unalignedFrame a)
  c.compose a c.tableBits

end EntryCodec

end Sandbox
