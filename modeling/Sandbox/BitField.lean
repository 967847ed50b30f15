import Sandbox.Word

/-! # Bit fields

A field is a run of bits of a word. Reading takes the run out; storing replaces
the run and keeps every other bit, as `getLsbD_set` says.
-/

namespace Sandbox

/-- The bits from `offset` up to, and without, `offset + width`. -/
structure BitField where
  offset : Nat
  width : Nat
  inWord : decide (offset + width ≤ 64) = true := by exact Eq.refl true
  deriving DecidableEq, Repr

namespace BitField

theorem le_word (f : BitField) : f.offset + f.width ≤ 64 :=
  of_decide_eq_true f.inWord

/-- The value of a field. -/
def get (f : BitField) (w : Word) : BitVec f.width :=
  w.extractLsb' f.offset f.width

/-- The bits of a field. -/
def mask (f : BitField) : Word :=
  (BitVec.allOnes f.width).setWidth 64 <<< f.offset

/-- The word with all bits of a field cleared. -/
def clear (f : BitField) (w : Word) : Word :=
  w ^^^ (w &&& f.mask)

/-- The word with a new value in a field. -/
def set (f : BitField) (v : BitVec f.width) (w : Word) : Word :=
  f.clear w ||| (v.setWidth 64 <<< f.offset)

/-- Whether a value of a whole word fits a field. -/
def Fits (f : BitField) (v : Word) : Prop :=
  v.toNat ≤ (BitVec.allOnes f.width).toNat

instance (f : BitField) (v : Word) : Decidable (f.Fits v) :=
  inferInstanceAs (Decidable (_ ≤ _))

/-- The word with a new value in a field, if the value fits. -/
def set? (f : BitField) (v : Word) (w : Word) : Option Word :=
  if f.Fits v then some (f.set (v.setWidth f.width) w) else none

/-- Whether the lowest bit of a field is set. -/
def flag (f : BitField) (w : Word) : Bool :=
  w.getLsbD f.offset

/-- The word with a field set to 1 or to 0. -/
def setFlag (f : BitField) (b : Bool) (w : Word) : Word :=
  f.set (if b then 1 else 0) w

/-- The value of a field as a word. -/
def word (f : BitField) (w : Word) : Word :=
  (f.get w).setWidth 64

theorem getLsbD_get (f : BitField) (w : Word) (i : Nat) :
    (f.get w).getLsbD i = (decide (i < f.width) && w.getLsbD (f.offset + i)) := by
  simp [get]

theorem getLsbD_mask (f : BitField) (i : Nat) :
    f.mask.getLsbD i = decide (f.offset ≤ i ∧ i < f.offset + f.width) := by
  have := f.le_word
  by_cases ho : f.offset ≤ i
  · by_cases hw : i < f.offset + f.width
    · have h₁ : i - f.offset < f.width := by omega
      have h₂ : ¬ i < f.offset := by omega
      have h₃ : i < 64 := by omega
      simp [mask, ho, hw, h₁, h₂, h₃]
    · have h₁ : ¬ (i - f.offset < f.width) := by omega
      simp [mask, hw, h₁]
  · have h₁ : i < f.offset := by omega
    simp [mask, ho, h₁]

theorem getLsbD_clear (f : BitField) (w : Word) (i : Nat) :
    (f.clear w).getLsbD i =
      (w.getLsbD i && !decide (f.offset ≤ i ∧ i < f.offset + f.width)) := by
  rw [clear, BitVec.getLsbD_xor, BitVec.getLsbD_and, getLsbD_mask]
  cases w.getLsbD i <;> simp

theorem getLsbD_set (f : BitField) (v : BitVec f.width) (w : Word) (i : Nat) (hi : i < 64) :
    (f.set v w).getLsbD i =
      if f.offset ≤ i ∧ i < f.offset + f.width then v.getLsbD (i - f.offset)
      else w.getLsbD i := by
  have := f.le_word
  rw [set, BitVec.getLsbD_or, getLsbD_clear]
  by_cases ho : f.offset ≤ i
  · by_cases hw : i < f.offset + f.width
    · have h₁ : i - f.offset < 64 := by omega
      have h₂ : ¬ i < f.offset := by omega
      simp [ho, hw, hi, h₂]
    · have h₁ : v.getLsbD (i - f.offset) = false := BitVec.getLsbD_of_ge _ _ (by omega)
      simp [hw, h₁]
  · have h₁ : i < f.offset := by omega
    simp [ho, h₁]

@[simp] theorem get_set (f : BitField) (v : BitVec f.width) (w : Word) : f.get (f.set v w) = v := by
  apply BitVec.eq_of_getLsbD_eq
  intro i hi
  have := f.le_word
  rw [getLsbD_get, getLsbD_set _ _ _ _ (by omega)]
  simp [hi]

end BitField

end Sandbox
