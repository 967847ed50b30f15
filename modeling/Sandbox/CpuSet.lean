import Sandbox.Checked

/-! # Sets of CPU numbers

A bitmap with 64 numbers in each word.
-/

namespace Sandbox

structure CpuSet where
  words : Array Word
  deriving DecidableEq, Repr

namespace CpuSet

/-- The empty set, with room for the numbers below `max`. -/
def empty (max : Nat) : CpuSet :=
  ⟨Array.replicate ((max + 63) / 64) 0⟩

/-- The word that holds the bit of a number. -/
def word (s : CpuSet) (id : Nat) : Except Abort Word :=
  orAbort s.words[id / 64]? .indexOutOfBounds

/-- The bit of a number in its word. -/
def bit (id : Nat) : Word :=
  1 <<< (id % 64)

def contains (s : CpuSet) (id : Nat) : Except Abort Bool := do
  pure (decide ((← s.word id) &&& bit id ≠ 0))

def insert (s : CpuSet) (id : Nat) : Except Abort CpuSet := do
  let w ← s.word id
  pure ⟨s.words.setIfInBounds (id / 64) (w ||| bit id)⟩

def erase (s : CpuSet) (id : Nat) : Except Abort CpuSet := do
  let w ← s.word id
  pure ⟨s.words.setIfInBounds (id / 64) (w &&& ~~~(bit id))⟩

/-- Number of bits that are set in a word. -/
def bitCount (w : Word) : Nat :=
  -- Most words of a large set are 0.
  if w = 0 then 0 else (List.range 64).countP fun i => w.getLsbD i

/-- Number of members. -/
def size (s : CpuSet) : Nat :=
  s.words.foldl (fun n w => n + bitCount w) 0

end CpuSet

end Sandbox
