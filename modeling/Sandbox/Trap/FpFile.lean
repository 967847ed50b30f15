import Sandbox.Checked

/-! # Floating-point register files

A file is a record of bytes: 32 registers of eight bytes, low byte first, then
four bytes of control and status, then room for wider registers.
-/

namespace Sandbox

/-- Bytes of a file. -/
def fpFileSize : Nat := 528

structure FpFile where
  bytes : Vector (BitVec 8) 528
  deriving DecidableEq

namespace FpFile

/-- First byte of the control and status register. -/
def fcsrOffset : Nat := 256

def zero : FpFile := ⟨Vector.replicate 528 0⟩

/-- The byte at an offset; bytes past the end read as 0. -/
def byteAt (s : FpFile) (i : Nat) : BitVec 8 := s.bytes.getD i 0

/-- Replace one byte. -/
def setByte (s : FpFile) (i : Nat) (b : BitVec 8) : FpFile :=
  ⟨s.bytes.setIfInBounds i b⟩

/-- The number spelled by `n` bytes from an offset on, low byte first. -/
def read (s : FpFile) (offset : Nat) : Nat → Nat
  | 0 => 0
  | n + 1 => (s.byteAt offset).toNat + 256 * s.read (offset + 1) n

/-- Write `n` bytes of a number from an offset on, low byte first. -/
def write (s : FpFile) (offset value : Nat) : Nat → FpFile
  | 0 => s
  | n + 1 => (s.setByte offset (BitVec.ofNat 8 value)).write (offset + 1) (value / 256) n

/-- Offset of the eight bytes of register `i`. -/
def offset (i : Word) : Except Abort Nat := do
  let first ← Word.mul i 8
  let stop ← Word.add first 8
  require (stop.toNat ≤ 528) .indexOutOfBounds
  pure first.toNat

/-- Raw bits of register `i`. -/
def f (s : FpFile) (i : Word) : Except Abort Word := do
  let first ← offset i
  pure (BitVec.ofNat 64 (s.read first 8))

/-- The file with new raw bits in register `i`. -/
def setF (s : FpFile) (i value : Word) : Except Abort FpFile := do
  let first ← offset i
  pure (s.write first value.toNat 8)

/-- Control and status. -/
def fcsr (s : FpFile) : BitVec 32 :=
  BitVec.ofNat 32 (s.read fcsrOffset 4)

def setFcsr (s : FpFile) (value : BitVec 32) : FpFile :=
  s.write fcsrOffset value.toNat 4

/-- Replace the byte at an index that may be out of range. -/
def storeByte (s : FpFile) (i : Nat) (b : BitVec 8) : Except Abort FpFile := do
  require (i < 528) .indexOutOfBounds
  pure (s.setByte i b)

/-- The maximal runs of non-zero bytes in `n` bytes from an offset on. -/
def runs (s : FpFile) (offset : Nat) : Nat → List (Nat × List (BitVec 8))
  | 0 => []
  | n + 1 =>
    let rest := s.runs (offset + 1) n
    let b := s.byteAt offset
    if b = 0 then rest
    else match rest with
      | (first, bs) :: more =>
        if first = offset + 1 then (offset, b :: bs) :: more else (offset, [b]) :: rest
      | [] => [(offset, [b])]

/-- The maximal runs of non-zero bytes. -/
def nonZero (s : FpFile) : List (Nat × List (BitVec 8)) :=
  s.runs 0 528

def debugText (s : FpFile) : String :=
  Text.openRecord "FpState" [("fcsr", Word.hex (s.fcsr.setWidth 64))]

end FpFile

end Sandbox
