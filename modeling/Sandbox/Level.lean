import Sandbox.Address

/-! # Levels of a page tree

A virtual address holds four indices of nine bits, one for each level of entry
arrays, above the twelve bits of the offset in a page. The levels below the root
are reached by recursion on the level.
-/

namespace Sandbox

/-- Entries of one array. -/
def entriesPerArray : Nat := 512

/-- A level of the tree, from the arrays of leaves up to the root. -/
inductive Level
  | pte | pmd | pud | pgd
  deriving DecidableEq, Repr

namespace Level

def name : Level → String
  | .pte => "Pte"
  | .pmd => "Pmd"
  | .pud => "Pud"
  | .pgd => "Pgd"

/-- Position of the lowest index bit. -/
def shift : Level → Nat
  | .pte => 12
  | .pmd => 21
  | .pud => 30
  | .pgd => 39

/-- Bytes covered by one slot. -/
def size (l : Level) : Word :=
  1 <<< l.shift

/-- The index bits. -/
def mask (l : Level) : Word :=
  0x1ff <<< l.shift

/-- The slot that covers an address in an array of this level. -/
def index (l : Level) (a : Word) : Fin 512 :=
  ⟨(a.toNat >>> l.shift) % 512, Nat.mod_lt _ (by decide)⟩

theorem toNat_masked_lt (l : Level) (a : Word) : ((a &&& l.mask) >>> l.shift).toNat < 512 := by
  have hle : (a &&& l.mask).toNat ≤ l.mask.toNat := by
    rw [BitVec.toNat_and]
    exact Nat.and_le_right
  rw [BitVec.toNat_ushiftRight, Nat.shiftRight_eq_div_pow]
  cases l <;> simp [mask, shift] at hle ⊢ <;> omega

/-- The number that the index bits of an address spell. -/
def maskedIndex (l : Level) (a : Word) : Fin 512 :=
  ⟨((a &&& l.mask) >>> l.shift).toNat, l.toNat_masked_lt a⟩

/-- Build a value for each level from the value for leaves and a step upwards, which
is given a level and the level below it. -/
def ascend {α : Type} (leaf : α) (up : Level → Level → α → α) : Level → α
  | .pte => leaf
  | .pmd => up .pmd .pte leaf
  | .pud => up .pud .pmd (up .pmd .pte leaf)
  | .pgd => up .pgd .pud (up .pud .pmd (up .pmd .pte leaf))

end Level

/-- Start of the block of `size` bytes after the one that holds `start`, or the
highest word if there is none. The size is a power of two. -/
def nextBlock (start size : Word) : Word :=
  if h : start.toNat + size.toNat < 2 ^ 64 then
    .ofNatLT (start.toNat + size.toNat) h &&& ~~~(size - 1)
  else BitVec.allOnes 64

end Sandbox
