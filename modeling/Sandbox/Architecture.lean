import Sandbox.Entry.Arm64
import Sandbox.Entry.Sv48
import Sandbox.Entry.X86
import Sandbox.Register.Cr3
import Sandbox.Register.Satp
import Sandbox.Register.Ttbr0

/-! # Architectures

An architecture pairs an entry codec with the register that selects a tree.
-/

namespace Sandbox

inductive Architecture
  | riscv64 | x86_64 | arm64
  deriving DecidableEq, Repr

namespace Architecture

def name : Architecture → String
  | .riscv64 => "riscv64"
  | .x86_64 => "x86_64"
  | .arm64 => "arm64"

def all : List Architecture := [.riscv64, .x86_64, .arm64]

def codec : Architecture → EntryCodec
  | .riscv64 => Sv48.codec
  | .x86_64 => X86.codec
  | .arm64 => Arm64.codec

/-- Largest usable tag. -/
def tagLimit : Architecture → Asid
  | .riscv64 => 4095
  | .x86_64 => 4095
  | .arm64 => 255

/-- The word that loads the tree at `root` under a tag. Hardware that can keep cached
mappings of the tag on a load is asked to if `keep` is set. -/
def rootWord (a : Architecture) (root : PhysicalAddress) (tag : Asid) (keep : Bool) :
    Except Abort Word :=
  match a with
  | .riscv64 => Satp.ofRoot root tag .sv48
  | .x86_64 => Cr3.ofRoot root tag keep
  | .arm64 => Ttbr0.ofRoot root tag

end Architecture

end Sandbox
