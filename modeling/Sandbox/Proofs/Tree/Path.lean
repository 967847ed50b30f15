import Mathlib.Data.Nat.ModEq
import Sandbox.Walk

/-! # Paths in a page tree

A path lists the slots that lead from the root to an array, the innermost first. The
addresses of one block share their path, and a cursor that leaves a slot enters the next
slot of the same array or leaves the array. On canonical addresses the four indices
determine the page.
-/

namespace Sandbox

namespace Level

def depth : Level → Nat
  | .pgd => 0
  | .pud => 1
  | .pmd => 2
  | .pte => 3

/-- The slots that lead to the array of a level that covers an address. -/
def path : Level → Word → List (Fin 512)
  | .pgd, _ => []
  | .pud, x => [pgd.index x]
  | .pmd, x => [pud.index x, pgd.index x]
  | .pte, x => [pmd.index x, pud.index x, pgd.index x]

inductive Below : Level → Level → Prop
  | pte : Below .pte .pmd
  | pmd : Below .pmd .pud
  | pud : Below .pud .pgd

theorem ascending {P : Level → Prop} (leaf : P .pte)
    (up : ∀ {child level}, Below child level → P child → P level) : ∀ l, P l := by
  have hmd := up .pte leaf
  have hud := up .pmd hmd
  rintro (_ | _ | _ | _)
  · exact leaf
  · exact hmd
  · exact hud
  · exact up .pud hud

variable {l child : Level} {x y : Word}

theorem Below.path_eq (h : Below child l) (x : Word) : child.path x = l.index x :: l.path x := by
  cases h <;> rfl

theorem Below.shift_eq (h : Below child l) : l.shift = child.shift + 9 := by
  cases h <;> rfl

theorem Below.depth_eq (h : Below child l) : child.depth = l.depth + 1 := by
  cases h <;> rfl

theorem Below.depth_lt (h : Below child l) : l.depth < 3 := by
  cases h <;> decide

@[simp] theorem length_path (l : Level) (x : Word) : (l.path x).length = l.depth := by
  cases l <;> rfl

theorem Below.length_path_lt (h : Below child l) (x : Word) : (l.path x).length < 3 := by
  rw [length_path]
  exact h.depth_lt

theorem depth_le (l : Level) : l.depth ≤ 3 := by
  cases l <;> decide

theorem twelve_le_shift (l : Level) : 12 ≤ l.shift := by
  cases l <;> decide

theorem block_aligned (l : Level) (b : Nat) : b * 2 ^ l.shift % 4096 = 0 := by
  obtain ⟨k, hk⟩ := Nat.exists_eq_add_of_le l.twelve_le_shift
  rw [hk, pow_add, Nat.mul_left_comm]
  exact Nat.mul_mod_right _ _

theorem index_val (l : Level) (x : Word) : (l.index x).val = x.toNat / 2 ^ l.shift % 512 :=
  congrArg (· % 512) (Nat.shiftRight_eq_div_pow _ _)

/-- The index bits spell the slot that covers the address. -/
theorem maskedIndex_eq (l : Level) (x : Word) : l.maskedIndex x = l.index x := by
  have hmask : ∀ i < 64, l.mask.getLsbD (l.shift + i) = (0x1ff : Word).getLsbD i := by
    cases l <;> decide
  have hbits : (x &&& l.mask) >>> l.shift = x >>> l.shift &&& 0x1ff := by
    apply BitVec.eq_of_getLsbD_eq
    intro i hi
    simp only [BitVec.getLsbD_ushiftRight, BitVec.getLsbD_and, hmask i hi]
  simp only [Fin.ext_iff, maskedIndex, index, hbits, BitVec.toNat_and, BitVec.toNat_ushiftRight]
  exact Nat.and_two_pow_sub_one_eq_mod _ 9

theorem size_toNat (l : Level) : l.size.toNat = 2 ^ l.shift := by
  cases l <;> rfl

/-- Paths agree for all addresses of the block that an array covers. -/
theorem path_congr (h : x.toNat / 2 ^ (l.shift + 9) = y.toNat / 2 ^ (l.shift + 9)) :
    l.path x = l.path y := by
  cases l <;> simp only [path, Fin.ext_iff, index_val, shift, List.cons.injEq, and_true] at h ⊢ <;>
    omega

theorem index_congr (h : x.toNat / 2 ^ l.shift = y.toNat / 2 ^ l.shift) :
    l.index x = l.index y := by
  rw [Fin.ext_iff, index_val, index_val, h]

theorem block_eq (l : Level) (x : Word) :
    x.toNat / 2 ^ l.shift = x.toNat / 2 ^ (l.shift + 9) * 512 + (l.index x).val := by
  have h := Nat.div_add_mod (x.toNat / 2 ^ l.shift) 512
  rw [Nat.div_div_eq_div_mul] at h
  rw [index_val, pow_add, Nat.mul_comm (_ / _) 512]
  exact h.symm

theorem block_end (l : Level) (b : Nat) :
    (b * 512 + 512) * 2 ^ l.shift = (b + 1) * 2 ^ (l.shift + 9) := by
  rw [pow_add, Nat.mul_comm (2 ^ l.shift), ← Nat.mul_assoc, Nat.add_mul b 1]
  rfl

theorem path_index_of_block {b i : Nat} (hi : i < 512)
    (h : y.toNat / 2 ^ l.shift = b * 512 + i) :
    (l.index y).val = i ∧ y.toNat / 2 ^ (l.shift + 9) = b := by
  have hb := block_eq l y
  have hlt := (l.index y).isLt
  omega

end Level

theorem Word.add?_eq (a b : Word) :
    add? a b = if a.toNat + b.toNat < 2 ^ 64 then some (a + b) else none := by
  unfold add?
  split
  next h =>
    congr 1
    apply BitVec.eq_of_toNat_eq
    rw [BitVec.toNat_ofNatLT, BitVec.toNat_add, Nat.mod_eq_of_lt h]
  next => rfl

theorem Word.toNat_and_not_mask (y m : Word) {k : Nat} (hm : m.toNat = 2 ^ k - 1) :
    (y &&& ~~~m).toNat = y.toNat / 2 ^ k * 2 ^ k := by
  have hdisjoint : (y &&& ~~~m) &&& (y &&& m) = 0#64 := by
    ext i hi
    simp only [BitVec.getElem_and, BitVec.getElem_not, BitVec.getElem_zero]
    cases y[i] <;> cases m[i] <;> rfl
  have hjoin : (y &&& ~~~m) ||| (y &&& m) = y := by
    ext i hi
    simp only [BitVec.getElem_or, BitVec.getElem_and, BitVec.getElem_not]
    cases y[i] <;> cases m[i] <;> rfl
  have hlow : (y &&& m).toNat = y.toNat % 2 ^ k := by
    rw [BitVec.toNat_and, hm, Nat.and_two_pow_sub_one_eq_mod]
  have hsum : (y &&& ~~~m).toNat + (y &&& m).toNat = y.toNat := by
    rw [← BitVec.toNat_add_of_and_eq_zero hdisjoint, BitVec.add_eq_or_of_and_eq_zero _ _ hdisjoint,
      hjoin]
  have hdiv := Nat.div_add_mod y.toNat (2 ^ k)
  rw [Nat.mul_comm]
  omega

/-- The next block starts after the one that holds the address, or at the highest word if there
is no next block. -/
theorem toNat_nextBlock_of_two_pow {size : Word} {k : Nat} (hsize : size.toNat = 2 ^ k)
    (x : Word) : (nextBlock x size).toNat =
      if (x.toNat / 2 ^ k + 1) * 2 ^ k < 2 ^ 64 then (x.toNat / 2 ^ k + 1) * 2 ^ k
      else 2 ^ 64 - 1 := by
  have hx := x.isLt
  have hpos := Nat.two_pow_pos k
  have hdiv := Nat.div_add_mod x.toNat (2 ^ k)
  have hmod := Nat.mod_lt x.toNat hpos
  have hk : k < 64 := (Nat.pow_lt_pow_iff_right (by decide)).mp (hsize ▸ size.isLt)
  have hmask : (size - 1).toNat = 2 ^ k - 1 := by
    rw [← hsize]
    exact BitVec.toNat_sub_of_le (BitVec.le_def.mpr (show 1 ≤ size.toNat by omega))
  unfold nextBlock
  simp only [hsize]
  by_cases h : x.toNat + 2 ^ k < 2 ^ 64
  · have hle : (x.toNat / 2 ^ k + 1) * 2 ^ k ≤ x.toNat + 2 ^ k := by
      rw [Nat.add_mul, Nat.mul_comm]; omega
    rw [dif_pos h, if_pos (by omega), Word.toNat_and_not_mask _ _ hmask,
      BitVec.toNat_ofNatLT, Nat.add_div_right _ hpos]
  · have hge : 2 ^ 64 ≤ (x.toNat / 2 ^ k + 1) * 2 ^ k := by
      obtain ⟨n, hn⟩ : 2 ^ k ∣ 2 ^ 64 := Nat.pow_dvd_pow 2 hk.le
      have hlt : 2 ^ k * n < 2 ^ k * (x.toNat / 2 ^ k + 1 + 1) := by
        rw [Nat.mul_add, Nat.mul_add]; omega
      have := Nat.lt_of_mul_lt_mul_left hlt
      rw [hn, Nat.mul_comm _ (2 ^ k)]
      exact Nat.mul_le_mul_left _ (by omega)
    rw [dif_neg h, if_neg (by omega)]
    rfl

theorem toNat_nextBlock (l : Level) (x : Word) :
    (nextBlock x l.size).toNat =
      if (x.toNat / 2 ^ l.shift + 1) * 2 ^ l.shift < 2 ^ 64
      then (x.toNat / 2 ^ l.shift + 1) * 2 ^ l.shift else 2 ^ 64 - 1 :=
  toNat_nextBlock_of_two_pow l.size_toNat x

def pagePath (x : Word) : List (Fin 512) :=
  Level.pte.index x :: Level.pte.path x

theorem Level.path_suffix_pagePath (l : Level) (x : Word) : l.path x <:+ pagePath x := by
  cases l
  · exact ⟨[pte.index x], rfl⟩
  · exact ⟨[pte.index x, pmd.index x], rfl⟩
  · exact ⟨[pte.index x, pmd.index x, pud.index x], rfl⟩
  · exact ⟨pagePath x, by simp [path]⟩

@[simp] theorem toNat_lowerTop : lowerTop.toNat = 2 ^ 47 - 1 := rfl
@[simp] theorem toNat_upperBottom : upperBottom.toNat = 2 ^ 64 - 2 ^ 47 := rfl
@[simp] theorem toNat_maxEnd : maxEnd.toNat = 2 ^ 64 - 4096 := rfl
@[simp] theorem toNat_pageSize : pageSize.toNat = 4096 := rfl

namespace Canonical

theorem isCanonical_iff (a : Word) :
    isCanonical a = true ↔ a.toNat < 2 ^ 47 ∨ 2 ^ 64 - 2 ^ 47 ≤ a.toNat := by
  simp only [isCanonical, Bool.or_eq_true, decide_eq_true_eq, BitVec.le_def, toNat_lowerTop,
    toNat_upperBottom]
  omega

variable {start stop : Word}

theorem isCanonicalRange_iff_half (hlt : start.toNat < stop.toNat) :
    isCanonicalRange start stop = true ↔
      stop.toNat ≤ 2 ^ 47 ∨ 2 ^ 64 - 2 ^ 47 ≤ start.toNat := by
  have hn : ¬ stop ≤ start := by rw [BitVec.le_def]; omega
  have hone : (stop - 1).toNat = stop.toNat - 1 :=
    BitVec.toNat_sub_of_le (BitVec.le_def.mpr (show 1 ≤ stop.toNat by omega))
  rw [isCanonicalRange, if_neg hn]
  simp only [Bool.or_eq_true, decide_eq_true_eq, BitVec.le_def, hone, toNat_lowerTop,
    toNat_upperBottom]
  omega

theorem forall_isCanonical_iff_half (hlt : start.toNat < stop.toNat) :
    (∀ x : Word, start.toNat ≤ x.toNat → x.toNat < stop.toNat → isCanonical x = true) ↔
      stop.toNat ≤ 2 ^ 47 ∨ 2 ^ 64 - 2 ^ 47 ≤ start.toNat := by
  constructor
  · intro h
    by_contra hhalf
    -- From the start on, this is the first address above the lower half.
    have hx := h (.ofNatLT (max start.toNat (2 ^ 47)) (by omega))
    rw [isCanonical_iff, BitVec.toNat_ofNatLT] at hx
    omega
  · intro h x hle hx
    rw [isCanonical_iff]
    omega

/-- On canonical addresses the four indices determine the page. -/
theorem pagePath_inj {x y : Word} (hx : isCanonical x = true) (hy : isCanonical y = true)
    (h : pagePath x = pagePath y) : x.toNat / 4096 = y.toNat / 4096 := by
  rw [isCanonical_iff] at hx hy
  have hxlt := x.isLt
  have hylt := y.isLt
  simp only [pagePath, Level.path, Fin.ext_iff, Level.index_val, Level.shift, List.cons.injEq,
    and_true] at h
  omega

end Canonical

namespace Level

theorem path_inj {l : Level} {x y : Word} (hl : l ≠ .pgd) (hx : Canonical.isCanonical x = true)
    (hy : Canonical.isCanonical y = true) (h : l.path x = l.path y) :
    x.toNat / 2 ^ (l.shift + 9) = y.toNat / 2 ^ (l.shift + 9) := by
  rw [Canonical.isCanonical_iff] at hx hy
  have hxlt := x.isLt
  have hylt := y.isLt
  cases l with
  | pgd => exact absurd rfl hl
  | pud | pmd | pte =>
    simp only [path, Fin.ext_iff, index_val, shift, List.cons.injEq, and_true] at h ⊢
    omega

end Level

namespace Walk

/-- The ranges that can be walked lie in one canonical half and end before the last page. -/
structure Accepted (start stop : Word) : Prop where
  aligned : start.toNat % 4096 = 0
  le : start.toNat ≤ stop.toNat
  stop_le : stop.toNat ≤ 2 ^ 64 - 4096
  canonical : Canonical.isCanonicalRange start stop = true

theorem accept_eq_ok_iff {start stop : Word} :
    accept start stop = .ok () ↔ Accepted start stop := by
  have ha : start % pageSize = 0 ↔ start.toNat % 4096 = 0 := by
    rw [← BitVec.toNat_inj, BitVec.toNat_umod]; rfl
  have hm : stop ≤ maxEnd ↔ stop.toNat ≤ 2 ^ 64 - 4096 := Iff.rfl
  simp only [accept, require_bind_eq_ok_iff, require_eq_ok_iff, ha, BitVec.le_def (x := start), hm]
  exact ⟨fun ⟨h₁, h₂, h₃, h₄⟩ => ⟨h₁, h₂, h₃, h₄⟩, fun ⟨h₁, h₂, h₃, h₄⟩ => ⟨h₁, h₂, h₃, h₄⟩⟩

theorem Accepted.half {start stop : Word} (h : Accepted start stop)
    (hlt : start.toNat < stop.toNat) :
    stop.toNat ≤ 2 ^ 47 ∨ 2 ^ 64 - 2 ^ 47 ≤ start.toNat :=
  (Canonical.isCanonicalRange_iff_half hlt).mp h.canonical

theorem Accepted.isCanonical {start stop x : Word} (h : Accepted start stop)
    (hx : start.toNat ≤ x.toNat) (hlt : x.toNat < stop.toNat) :
    Canonical.isCanonical x = true :=
  (Canonical.forall_isCanonical_iff_half (by omega)).mpr (h.half (by omega)) x hx hlt

end Walk

end Sandbox
