/-! # Machine words

Addresses, entries and registers are 64-bit words; address-space tags have 16 bits.
Numbers are written in lower-case hexadecimal, either in their shortest form or
padded to the sixteen digits of an address.
-/

namespace Sandbox

abbrev Word := BitVec 64

/-- A tag of an address space; tag 0 means that no tag is bound. -/
abbrev Asid := BitVec 16

/-- The arithmetic operations that are checked for leaving the range of a word. -/
inductive Arithmetic
  | add | sub | mul
  deriving DecidableEq, Repr

namespace Word

/-- The sum, unless it needs a 65th bit. -/
def add? (a b : Word) : Option Word :=
  if h : a.toNat + b.toNat < 2 ^ 64 then some (.ofNatLT (a.toNat + b.toNat) h) else none

/-- The difference, unless it is negative. -/
def sub? (a b : Word) : Option Word :=
  if b.toNat ≤ a.toNat then some (a - b) else none

/-- The product, unless it needs a 65th bit. -/
def mul? (a b : Word) : Option Word :=
  if h : a.toNat * b.toNat < 2 ^ 64 then some (.ofNatLT (a.toNat * b.toNat) h) else none

/-- Shortest hexadecimal form, as in `0x1f`. -/
def hex (w : Word) : String :=
  "0x" ++ String.ofList (Nat.toDigits 16 w.toNat)

/-- Hexadecimal form with all sixteen digits. -/
def hexPadded (w : Word) : String :=
  let digits := Nat.toDigits 16 w.toNat
  "0x" ++ String.ofList (List.replicate (16 - digits.length) '0' ++ digits)

end Word

end Sandbox
