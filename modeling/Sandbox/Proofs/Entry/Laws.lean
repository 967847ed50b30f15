import Mathlib.Algebra.Group.Nat.Defs
import Mathlib.Tactic.SplitIfs
import Sandbox.Architecture

/-! # Laws of the entry codecs

A codec keeps what an entry is apart from where it points: the frame number fills a
field that no option bit overlaps. Each architecture obeys these laws, and so every
leaf and every pointer reads back as what it was composed from.
-/

namespace Sandbox

theorem Word.getLsbD_eq_of_lt {x y : Word} {i : Nat} (h : i < 64 → x.getLsbD i = y.getLsbD i) :
    x.getLsbD i = y.getLsbD i := by
  by_cases hi : i < 64
  · exact h hi
  · rw [BitVec.getLsbD_of_ge _ _ (by omega), BitVec.getLsbD_of_ge _ _ (by omega)]

namespace BitField

theorem fits_iff {f : BitField} {v : Word} : f.Fits v ↔ v.toNat < 2 ^ f.width := by
  rw [Fits, BitVec.toNat_allOnes]
  exact Nat.le_sub_one_iff_lt (Nat.two_pow_pos _)

theorem store_of_fits {f : BitField} {v : Word} (h : f.Fits v) (w : Word) :
    f.store v w = .ok (f.set (v.setWidth _) w) := by
  rw [store, set?, if_pos h]
  rfl

theorem store_of_not_fits {f : BitField} {v : Word} (h : ¬ f.Fits v) (w : Word) :
    f.store v w = .error (.fieldOutOfBounds f.width) := by
  rw [store, set?, if_neg h]
  rfl

theorem getLsbD_setFlag {f : BitField} (hf : f.width = 1) (b : Bool) (w : Word) {i : Nat}
    (hi : i < 64) : (f.setFlag b w).getLsbD i = if i = f.offset then b else w.getLsbD i := by
  rw [setFlag, getLsbD_set f _ w i hi]
  by_cases hoff : i = f.offset
  · subst hoff
    cases b <;> simp [hf]
  · rw [if_neg hoff, if_neg (by omega)]

def Apart (f g : BitField) : Prop :=
  f.offset + f.width ≤ g.offset ∨ g.offset + g.width ≤ f.offset

instance (f g : BitField) : Decidable (f.Apart g) :=
  inferInstanceAs (Decidable (_ ∨ _))

namespace Apart

variable {f g : BitField}

theorem get_set (h : f.Apart g) (v : BitVec g.width) (w : Word) : f.get (g.set v w) = f.get w := by
  unfold Apart at h
  have := f.le_word
  apply BitVec.eq_of_getLsbD_eq
  intro i hi
  rw [getLsbD_get, getLsbD_get, getLsbD_set _ _ _ _ (by omega), if_neg (by omega)]

theorem flag_set (h : f.Apart g) (hf : 0 < f.width) (v : BitVec g.width) (w : Word) :
    f.flag (g.set v w) = f.flag w := by
  unfold Apart at h
  have := f.le_word
  rw [flag, flag, getLsbD_set _ _ _ _ (by omega), if_neg (by omega)]

theorem set_comm (h : f.Apart g) (a : BitVec f.width) (b : BitVec g.width) (w : Word) :
    g.set b (f.set a w) = f.set a (g.set b w) := by
  unfold Apart at h
  apply BitVec.eq_of_getLsbD_eq
  intro i hi
  simp only [getLsbD_set _ _ _ _ hi]
  -- The only case in which the two sides differ is a bit of both fields.
  split_ifs <;> first | rfl | omega

end Apart

end BitField

theorem PhysicalAddress.isPageAligned_iff (a : PhysicalAddress) :
    a.isPageAligned = true ↔ a.word.toNat % 4096 = 0 := by
  rw [isPageAligned, beq_iff_eq, ← BitVec.toNat_inj, BitVec.toNat_umod]
  rfl

namespace EntryCodec

def IsPointer (c : EntryCodec) (w : Word) (a : PhysicalAddress) : Prop :=
  a.isPageAligned = true ∧ c.compose a c.tableBits = .ok w

def IsLeafOf (c : EntryCodec) (w : Word) (a : PhysicalAddress) (o : MapOptions) : Prop :=
  o.access.any = true ∧ a.isPageAligned = true ∧ c.compose a (c.leafBits o) = .ok w

def IsLeaf (c : EntryCodec) (w : Word) : Prop :=
  ∃ a o, c.IsLeafOf w a o

/-- The array that an entry points at, if it points at one. -/
def child? (c : EntryCodec) (w : Word) : Option PhysicalAddress :=
  if c.isIntermediate w then some (c.address w) else none

/-- What the option bits say, and that the frame number does not disturb it. -/
structure Lawful (c : EntryCodec) : Prop where
  isValid_zero : c.isValid 0 = false
  frame_width : c.frame.width ≤ 52
  isValid_set (v : BitVec c.frame.width) (w : Word) : c.isValid (c.frame.set v w) = c.isValid w
  isTable_set (v : BitVec c.frame.width) (w : Word) : c.isTable (c.frame.set v w) = c.isTable w
  options_set (v : BitVec c.frame.width) (w : Word) : c.options (c.frame.set v w) = c.options w
  isValid_leafBits (o : MapOptions) : c.isValid (c.leafBits o) = true
  isTable_leafBits (o : MapOptions) : c.isTable (c.leafBits o) = false
  options_leafBits (o : MapOptions) (h : o.access.any = true) :
    c.options (c.leafBits o) = o.normalized
  isValid_tableBits : c.isValid c.tableBits = true
  isTable_tableBits : c.isTable c.tableBits = true

variable {c : EntryCodec} {a b : PhysicalAddress} {bits w : Word} {o : MapOptions}

def Fits (c : EntryCodec) (a : PhysicalAddress) : Prop :=
  c.frame.Fits (a.word >>> 12)

theorem fits_iff : c.Fits a ↔ a.word.toNat / 2 ^ 12 < 2 ^ c.frame.width := by
  rw [Fits, BitField.fits_iff, BitVec.toNat_ushiftRight, Nat.shiftRight_eq_div_pow]

theorem fits_of_lt (A : Architecture) (h : a.word.toNat < 2 ^ 48) : A.codec.Fits a := by
  have hwidth : 36 ≤ A.codec.frame.width := by cases A <;> decide
  have hframe : a.word.toNat / 2 ^ 12 < 2 ^ 36 := by omega
  rw [fits_iff]
  exact Nat.lt_of_lt_of_le hframe (Nat.pow_le_pow_right (by decide) hwidth)

theorem compose_eq_ok_iff : c.compose a bits = .ok w ↔
    c.Fits a ∧ w = c.frame.set ((a.word >>> 12).setWidth _) bits := by
  by_cases h : c.frame.Fits (a.word >>> 12)
  · simp [compose, Fits, BitField.store_of_fits h, h, eq_comm]
  · simp [compose, Fits, BitField.store_of_not_fits h, h]

theorem compose_of_fits (h : c.Fits a) :
    c.compose a bits = .ok (c.frame.set ((a.word >>> 12).setWidth _) bits) :=
  compose_eq_ok_iff.mpr ⟨h, rfl⟩

/-- A frame number that fits gives back the aligned address it was taken from. -/
theorem Lawful.address_of_compose (hc : c.Lawful) (ha : a.isPageAligned = true)
    (h : c.compose a bits = .ok w) : c.address w = a := by
  obtain ⟨hf, rfl⟩ := compose_eq_ok_iff.mp h
  have hw := hc.frame_width
  rw [PhysicalAddress.isPageAligned_iff] at ha
  have hf' := fits_iff.mp hf
  have hlt := a.word.isLt
  cases a with | mk aw =>
  unfold address BitField.word
  congr 1
  apply BitVec.eq_of_toNat_eq
  rw [BitField.get_set, BitVec.toNat_shiftLeft, BitVec.toNat_setWidth, BitVec.toNat_setWidth,
    BitVec.toNat_ushiftRight, Nat.shiftRight_eq_div_pow, Nat.shiftLeft_eq,
    Nat.mod_eq_of_lt hf', Nat.mod_eq_of_lt (by omega : aw.toNat / 2 ^ 12 < 2 ^ 64)]
  dsimp only at ha hlt ⊢
  omega

namespace IsPointer

theorem isIntermediate (hc : c.Lawful) (h : c.IsPointer w a) : c.isIntermediate w = true := by
  obtain ⟨-, rfl⟩ := compose_eq_ok_iff.mp h.2
  rw [EntryCodec.isIntermediate, hc.isValid_set, hc.isTable_set, hc.isValid_tableBits,
    hc.isTable_tableBits]
  rfl

theorem isValid (hc : c.Lawful) (h : c.IsPointer w a) : c.isValid w = true :=
  (Bool.and_eq_true_iff.mp (h.isIntermediate hc)).1

theorem isTable (hc : c.Lawful) (h : c.IsPointer w a) : c.isTable w = true :=
  (Bool.and_eq_true_iff.mp (h.isIntermediate hc)).2

theorem address_eq (hc : c.Lawful) (h : c.IsPointer w a) : c.address w = a :=
  hc.address_of_compose h.1 h.2

theorem child?_eq (hc : c.Lawful) (h : c.IsPointer w a) : c.child? w = some a := by
  rw [child?, if_pos (h.isIntermediate hc), h.address_eq hc]

end IsPointer

namespace IsLeafOf

theorem isValid (hc : c.Lawful) (h : c.IsLeafOf w a o) : c.isValid w = true := by
  obtain ⟨-, rfl⟩ := compose_eq_ok_iff.mp h.2.2
  rw [hc.isValid_set, hc.isValid_leafBits]

theorem isTable (hc : c.Lawful) (h : c.IsLeafOf w a o) : c.isTable w = false := by
  obtain ⟨-, rfl⟩ := compose_eq_ok_iff.mp h.2.2
  rw [hc.isTable_set, hc.isTable_leafBits]

theorem options_eq (hc : c.Lawful) (h : c.IsLeafOf w a o) : c.options w = o.normalized := by
  obtain ⟨-, rfl⟩ := compose_eq_ok_iff.mp h.2.2
  rw [hc.options_set, hc.options_leafBits _ h.1]

theorem address_eq (hc : c.Lawful) (h : c.IsLeafOf w a o) : c.address w = a :=
  hc.address_of_compose h.2.1 h.2.2

end IsLeafOf

theorem child?_eq_none (h : c.isValid w = false) : c.child? w = none := by
  simp [child?, isIntermediate, h]

theorem Lawful.child?_zero (hc : c.Lawful) : c.child? 0 = none :=
  child?_eq_none hc.isValid_zero

theorem leafWith_eq_ok (h : c.leafWith (c.bits? o) a = .ok w) (ho : o.access.any = true) :
    c.IsLeafOf w a o := by
  unfold leafWith bits? require at h
  rw [if_pos ho] at h
  by_cases ha : a.isPageAligned = true
  · rw [if_pos ha] at h
    exact ⟨ho, ha, h⟩
  · rw [if_neg ha] at h
    cases h

theorem leafWith_eq_error {e : Abort} (h : c.leafWith (c.bits? o) a = .error e) :
    e = .unalignedFrame a ∨ e = .fieldOutOfBounds c.frame.width := by
  unfold leafWith bits? require at h
  by_cases ha : a.isPageAligned = true
  · rw [if_pos ha] at h
    by_cases ho : o.access.any = true
    · rw [if_pos ho] at h
      right
      change c.compose a (c.leafBits o) = .error e at h
      by_cases hf : c.frame.Fits (a.word >>> 12)
      · rw [compose, BitField.store_of_fits hf] at h; cases h
      · rw [compose, BitField.store_of_not_fits hf] at h; cases h; rfl
    · rw [if_neg ho] at h
      cases h
  · rw [if_neg ha] at h
    cases h
    exact Or.inl rfl

theorem table_of_fits (hold : c.isValid bits = false) (ha : a.isPageAligned = true)
    (hf : c.Fits a) : ∃ w, c.table bits a = .ok w ∧ c.IsPointer w a := by
  refine ⟨_, ?_, ha, compose_of_fits hf⟩
  unfold table require
  rw [if_pos (by simp [hold]), if_pos ha]
  exact compose_of_fits hf

end EntryCodec

theorem MapOptions.normalized_normalized (o : MapOptions) :
    o.normalized.normalized = o.normalized := by
  unfold normalized
  split <;> simp [Access.any]

theorem MapOptions.any_normalized {o : MapOptions} (h : o.access.any = true) :
    o.normalized.access.any = true := by
  rw [normalized, if_pos h]; rfl

section Instances

open BitField

theorem Sv48.lawful : Sv48.codec.Lawful where
  isValid_zero := by decide
  frame_width := by decide
  isValid_set := Apart.flag_set (by decide) (by decide)
  isTable_set (v : BitVec Sv48.ppn.width) w := by
    simp (disch := decide) only [Sv48.codec, Apart.flag_set]
  options_set (v : BitVec Sv48.ppn.width) w := by
    simp (disch := decide) only [Sv48.codec, Apart.flag_set]
  isValid_leafBits := by rintro ⟨⟨r, w, x⟩, g, u⟩; revert r w x g u; decide
  isTable_leafBits := by rintro ⟨⟨r, w, x⟩, g, u⟩; revert r w x g u; decide
  options_leafBits := by rintro ⟨⟨r, w, x⟩, g, u⟩; revert r w x g u; decide
  isValid_tableBits := by decide
  isTable_tableBits := by decide

theorem X86.lawful : X86.codec.Lawful where
  isValid_zero := by decide
  frame_width := by decide
  isValid_set := Apart.flag_set (by decide) (by decide)
  isTable_set := Apart.flag_set (by decide) (by decide)
  options_set (v : BitVec X86.frame.width) w := by
    simp (disch := decide) only [X86.codec, Apart.flag_set]
  isValid_leafBits := by rintro ⟨⟨r, w, x⟩, g, u⟩; revert r w x g u; decide
  isTable_leafBits := by rintro ⟨⟨r, w, x⟩, g, u⟩; revert r w x g u; decide
  options_leafBits := by rintro ⟨⟨r, w, x⟩, g, u⟩; revert r w x g u; decide
  isValid_tableBits := by decide
  isTable_tableBits := by decide

theorem Arm64.lawful : Arm64.codec.Lawful where
  isValid_zero := by decide
  frame_width := by decide
  isValid_set := Apart.flag_set (by decide) (by decide)
  isTable_set := Apart.flag_set (by decide) (by decide)
  options_set (v : BitVec Arm64.output.width) w := by
    simp (disch := decide) only [Arm64.codec, Apart.flag_set]
  isValid_leafBits := by rintro ⟨⟨r, w, x⟩, g, u⟩; revert r w x g u; decide
  isTable_leafBits := by rintro ⟨⟨r, w, x⟩, g, u⟩; revert r w x g u; decide
  options_leafBits := by rintro ⟨⟨r, w, x⟩, g, u⟩; revert r w x g u; decide
  isValid_tableBits := by decide
  isTable_tableBits := by decide

/-- Every architecture obeys the laws. -/
theorem Architecture.lawful : ∀ A : Architecture, A.codec.Lawful
  | .riscv64 => Sv48.lawful
  | .x86_64 => X86.lawful
  | .arm64 => Arm64.lawful

end Instances

/-! ## Words of leaves -/

section Leaves

variable {A : Architecture} {w w' : Word} {a : PhysicalAddress} {o o' : MapOptions}

theorem Architecture.leafBits_normalized (A : Architecture) (o : MapOptions) :
    A.codec.leafBits o.normalized = A.codec.leafBits o := by
  unfold MapOptions.normalized
  split
  · cases A <;> rfl
  · rfl

theorem EntryCodec.IsLeafOf.leafWith_eq {c : EntryCodec} (h : c.IsLeafOf w a o) :
    c.leafWith (c.bits? o) a = .ok w := by
  unfold leafWith bits? require
  rw [if_pos h.2.1, if_pos h.1]
  exact h.2.2

theorem EntryCodec.IsLeaf.eq (h : A.codec.IsLeaf w) (h' : A.codec.IsLeaf w')
    (haddress : A.codec.address w' = A.codec.address w)
    (hoptions : A.codec.options w' = A.codec.options w) : w' = w := by
  obtain ⟨a, o, h⟩ := h
  obtain ⟨a', o', h'⟩ := h'
  rw [h.address_eq A.lawful, h'.address_eq A.lawful] at haddress
  rw [h.options_eq A.lawful, h'.options_eq A.lawful] at hoptions
  have hbits : A.codec.leafBits o' = A.codec.leafBits o := by
    rw [← A.leafBits_normalized o', hoptions, A.leafBits_normalized]
  have hword := h'.2.2
  rw [haddress, hbits] at hword
  exact Except.ok.inj (hword.symm.trans h.2.2)

end Leaves

end Sandbox
