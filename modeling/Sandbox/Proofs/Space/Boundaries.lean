import Mathlib.Order.Bounds.Defs
import Sandbox.Proofs.Space.Create
import Sandbox.Proofs.Walk.Segments

/-! # Boundaries of the address space

Ranges are checked, scans are cut at the hole, walks step over missing blocks and spaces are
shared from a root slot on. All of this places the ends of the halves, of the blocks and of the
root slots alike, for all pairs of words and up to the top of the address space, where the end of
the last block is no word any more.
-/

namespace Sandbox

open AddressSpace

variable {start stop size x : Word} {i j : Fin 512}

namespace Canonical

/-! ## Ranges and their parts -/

theorem isCanonicalRange_iff (hlt : start < stop) : isCanonicalRange start stop = true ↔
    ∀ x, start ≤ x → x < stop → isCanonical x = true :=
  (isCanonicalRange_iff_half hlt).trans (forall_isCanonical_iff_half hlt).symm

/-- The ranges hold the canonical addresses of `[start, stop)` and no others. -/
structure Divides (start stop : Word) (rs : List (Word × Word)) : Prop where
  nonempty : ∀ r ∈ rs, r.1 < r.2
  /-- Each range ends before the next one starts, so that no two share an address. -/
  ascending : rs.Pairwise fun r r' => r.2 ≤ r'.1
  covers (x : Word) : (∃ r ∈ rs, r.1 ≤ x ∧ x < r.2) ↔
    start ≤ x ∧ x < stop ∧ isCanonical x = true
  accepted : ∀ r ∈ rs, isCanonicalRange r.1 r.2 = true

theorem divides_segments (start stop : Word) : Divides start stop (segments start stop) := by
  have hpart {r : Word × Word} (hr : r ∈ segments start stop) := isPart_of_mem_segments hr
  constructor
  case nonempty => exact fun r hr => (hpart hr).lt
  case ascending => exact pairwise_segments start stop
  case accepted => exact fun r hr => (isCanonicalRange_iff_half (hpart hr).lt).mpr (hpart hr).half
  case covers =>
    intro x
    constructor
    · rintro ⟨r, hr, hle, hlt⟩
      have hc := (forall_isCanonical_iff_half (hpart hr).lt).mpr (hpart hr).half x hle hlt
      exact ⟨(hpart hr).le.trans hle, hlt.trans_le (hpart hr).stop_le, hc⟩
    · rintro ⟨hle, hlt, hc⟩
      exact exists_segment hc hle hlt

example : segments 0x1000 maxEnd = [(0x1000, lowerTop + 1), (upperBottom, maxEnd)] := by decide

end Canonical

/-! ## Blocks -/

theorem isLeast_multiple (n k : ℕ) :
    IsLeast {m | 2 ^ k ∣ m ∧ n < m} ((n / 2 ^ k + 1) * 2 ^ k) := by
  constructor
  · have hlt := Nat.lt_div_mul_add (a := n) (Nat.two_pow_pos k)
    exact ⟨Nat.dvd_mul_left _ _, by rwa [Nat.add_mul, Nat.one_mul]⟩
  · rintro _ ⟨⟨c, rfl⟩, hlt⟩
    rw [Nat.mul_comm]
    exact Nat.mul_le_mul_left _ (Nat.div_lt_of_lt_mul hlt)

/-- The word is the least multiple of `size` above `start`, or the highest word if that multiple
is `2 ^ 64`. -/
def NextMultiple (start size next : Word) : Prop :=
  ∃ n, IsLeast {m | size.toNat ∣ m ∧ start.toNat < m} n ∧
    if n = 2 ^ 64 then next = .allOnes 64 else next.toNat = n

theorem nextMultiple_nextBlock (h : size.toNat.isPowerOfTwo) (start : Word) :
    NextMultiple start size (nextBlock start size) := by
  obtain ⟨k, hk⟩ := h
  have hleast := isLeast_multiple start.toNat k
  have hnext := toNat_nextBlock_of_two_pow hk start
  have hle : k ≤ 64 := (Nat.pow_le_pow_iff_right (by decide)).mp (hk ▸ size.isLt.le)
  have htop := hleast.2 ⟨Nat.pow_dvd_pow 2 hle, start.isLt⟩
  refine ⟨(start.toNat / 2 ^ k + 1) * 2 ^ k, by rwa [hk], ?_⟩
  split
  · next heq =>
    rw [if_neg (by omega)] at hnext
    exact BitVec.eq_of_toNat_eq hnext
  · next hne => rw [hnext, if_pos (by omega)]

example : nextBlock (.allOnes 64 - 5) Level.pmd.size = .allOnes 64 := by decide

theorem nextBlockChecked_eq_ok (h : size.toNat.isPowerOfTwo) (start : Word) :
    nextBlockChecked start size = .ok (nextBlock start size) := by
  have hne : size ≠ 0 := by
    rintro rfl
    exact absurd (Nat.pos_of_isPowerOfTwo h) (Nat.lt_irrefl _)
  exact require_bind_eq_ok_iff.mpr ⟨hne, rfl⟩

/-! ## Root slots -/

/-- The address at which a root slot starts. The slots from 256 on lie above the hole. -/
def slotStart (i : Fin 512) : Word :=
  .ofNat 64 ((if i.val < 256 then i.val else i.val + (2 ^ 25 - 512)) * 2 ^ 39)

theorem toNat_slotStart (i : Fin 512) : (slotStart i).toNat =
    (if i.val < 256 then i.val else i.val + (2 ^ 25 - 512)) * 2 ^ 39 := by
  have hi := i.isLt
  rw [slotStart, BitVec.toNat_ofNat, Nat.mod_eq_of_lt]
  split <;> omega

theorem rootSlot_eq_ok_iff_slotStart : rootSlot x = .ok i ↔ x = slotStart i := by
  have hx := x.isLt
  have hi := i.isLt
  rw [rootSlot_eq_ok_iff, Canonical.isCanonical_iff, Fin.ext_iff, Level.index_val,
    ← BitVec.toNat_inj, toNat_slotStart]
  simp only [Level.shift]
  split <;> omega

theorem slotStart_lt_iff : slotStart i < slotStart j ↔ i < j := by
  have hi := i.isLt
  have hj := j.isLt
  rw [BitVec.lt_def, toNat_slotStart, toNat_slotStart, Fin.lt_def]
  split <;> split <;> omega

structure NumbersSlots (number : Word → Except Abort (Fin 512)) : Prop where
  accepts_iff (x : Word) : (∃ i, number x = .ok i) ↔
    2 ^ 39 ∣ x.toNat ∧ Canonical.isCanonical x = true
  existsUnique (i : Fin 512) : ∃! x, number x = .ok i
  ascending {x y : Word} {i j : Fin 512} (hx : number x = .ok i) (hy : number y = .ok j) :
    x < y ↔ i < j
  /-- A walk finds the address in the slot of this number. -/
  index_eq {x : Word} {i : Fin 512} (h : number x = .ok i) : Level.pgd.index x = i

theorem numbersSlots_rootSlot : NumbersSlots rootSlot := by
  constructor
  case accepts_iff =>
    intro x
    simp [rootSlot_eq_ok_iff, Nat.dvd_iff_mod_eq_zero]
  case existsUnique =>
    intro i
    simp [rootSlot_eq_ok_iff_slotStart]
  case ascending =>
    intro x y i j hx hy
    rw [rootSlot_eq_ok_iff_slotStart] at hx hy
    rw [hx, hy, slotStart_lt_iff]
  case index_eq => exact fun h => (rootSlot_eq_ok_iff.mp h).2.2.symm

/-- Range checks, parts of ranges, blocks and root slots agree on all boundaries. -/
theorem boundaries_exact :
    (∀ start stop : Word, start < stop → (Canonical.isCanonicalRange start stop = true ↔
      ∀ x, start ≤ x → x < stop → Canonical.isCanonical x = true)) ∧
    (∀ start stop : Word, Canonical.Divides start stop (Canonical.segments start stop)) ∧
    (∀ start size : Word, size.toNat.isPowerOfTwo →
      nextBlockChecked start size = .ok (nextBlock start size) ∧
        NextMultiple start size (nextBlock start size)) ∧
    NumbersSlots rootSlot := by
  refine ⟨?_, ?_, ?_, ?_⟩
  · exact fun start stop hlt => Canonical.isCanonicalRange_iff hlt
  · exact Canonical.divides_segments
  · exact fun start size h => ⟨nextBlockChecked_eq_ok h start, nextMultiple_nextBlock h start⟩
  · exact numbersSlots_rootSlot

end Sandbox
