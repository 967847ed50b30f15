import Sandbox.Proofs.Walk.Scope

/-! # Canonical parts of a range

A scan of many root slots is split at the hole between the canonical halves. The parts are
ranges that can be walked, they come in ascending order, and together they hold every
canonical address of the whole.
-/

namespace Sandbox

namespace Canonical

open Walk (Accepted Inside)

variable {base start stop top y : Word}

/-- Addresses up to which a whole space can be walked. -/
structure IsTop (top : Word) : Prop where
  aligned : top.toNat % 4096 = 0
  le : top.toNat ≤ 2 ^ 64 - 4096
  canonical : isCanonical top = true

theorem isTop_maxEnd : IsTop maxEnd := by
  constructor <;> decide

theorem lowerSegment_eq_some (h : lowerSegment base top = some (start, stop)) :
    start = base ∧ base.toNat < 2 ^ 47 ∧ base.toNat < top.toNat ∧
      stop.toNat = min top.toNat (2 ^ 47) := by
  unfold lowerSegment at h
  split at h
  · next hpos =>
    obtain ⟨rfl, hstop⟩ := Prod.mk.inj (Option.some.inj h)
    obtain ⟨hlow, hlt⟩ := hpos
    rw [BitVec.le_def, toNat_lowerTop] at hlow
    have hval : stop.toNat = if top.toNat ≤ 2 ^ 47 - 1 then top.toNat else 2 ^ 47 := by
      rw [← hstop]
      simp only [BitVec.le_def, toNat_lowerTop]
      split <;> rfl
    refine ⟨rfl, by omega, hlt, ?_⟩
    split at hval <;> omega
  · cases h

theorem upperSegment_eq (base top : Word) : ∃ first : Word,
    first.toNat = max base.toNat (2 ^ 64 - 2 ^ 47) ∧
      upperSegment base top = if first.toNat < top.toNat then some (first, top) else none := by
  refine ⟨if base ≤ upperBottom then upperBottom else base, ?_, rfl⟩
  split
  · next hle =>
    rw [BitVec.le_def, toNat_upperBottom] at hle
    rw [toNat_upperBottom]
    omega
  · next hn =>
    rw [BitVec.le_def, toNat_upperBottom] at hn
    omega

theorem upperSegment_eq_some (h : upperSegment base top = some (start, stop)) :
    start.toNat = max base.toNat (2 ^ 64 - 2 ^ 47) ∧ stop = top ∧ start.toNat < top.toNat := by
  obtain ⟨first, hfirst, heq⟩ := upperSegment_eq base top
  rw [heq] at h
  split at h
  · next hpos =>
    obtain ⟨rfl, rfl⟩ := Prod.mk.inj (Option.some.inj h)
    exact ⟨hfirst, rfl, hpos⟩
  · cases h

theorem mem_segments {r : Word × Word} : r ∈ segments base top ↔
    lowerSegment base top = some r ∨ upperSegment base top = some r := by
  rw [segments, List.mem_append, Option.mem_toList, Option.mem_toList]

structure IsPart (base top : Word) (r : Word × Word) : Prop where
  le : base.toNat ≤ r.1.toNat
  lt : r.1.toNat < r.2.toNat
  stop_le : r.2.toNat ≤ top.toNat
  half : r.2.toNat ≤ 2 ^ 47 ∨ 2 ^ 64 - 2 ^ 47 ≤ r.1.toNat

theorem isPart_of_mem_segments {r : Word × Word} (h : r ∈ segments base top) :
    IsPart base top r := by
  obtain ⟨start, stop⟩ := r
  rcases mem_segments.mp h with h | h
  · obtain ⟨rfl, hlow, hlt, hstop⟩ := lowerSegment_eq_some h
    constructor <;> dsimp only <;> omega
  · obtain ⟨hstart, rfl, hlt⟩ := upperSegment_eq_some h
    constructor <;> dsimp only <;> omega

theorem accepted_of_mem_segments (hb : base.toNat % 4096 = 0) (ht : IsTop top)
    (h : (start, stop) ∈ segments base top) :
    Accepted start stop ∧ base.toNat ≤ start.toNat ∧ stop.toNat ≤ top.toNat := by
  have hpart := isPart_of_mem_segments h
  have haligned : start.toNat % 4096 = 0 := by
    rcases mem_segments.mp h with h | h
    · obtain ⟨rfl, -⟩ := lowerSegment_eq_some h
      exact hb
    · obtain ⟨hstart, -⟩ := upperSegment_eq_some h
      omega
  exact ⟨⟨haligned, hpart.lt.le, hpart.stop_le.trans ht.le,
    (isCanonicalRange_iff_half hpart.lt).mpr hpart.half⟩, hpart.le, hpart.stop_le⟩

theorem exists_segment (hy : isCanonical y = true) (hle : base.toNat ≤ y.toNat)
    (hlt : y.toNat < top.toNat) :
    ∃ r ∈ segments base top, r.1.toNat ≤ y.toNat ∧ y.toNat < r.2.toNat := by
  rw [isCanonical_iff] at hy
  rcases hy with hy | hy
  · have hpos : base ≤ lowerTop ∧ base < top := by
      rw [BitVec.le_def, BitVec.lt_def, toNat_lowerTop]
      omega
    obtain ⟨⟨start, stop⟩, hr⟩ : ∃ r, lowerSegment base top = some r := ⟨_, if_pos hpos⟩
    obtain ⟨rfl, -, -, hstop⟩ := lowerSegment_eq_some hr
    refine ⟨_, mem_segments.mpr (Or.inl hr), hle, ?_⟩
    dsimp only
    omega
  · obtain ⟨first, hfirst, heq⟩ := upperSegment_eq base top
    rw [if_pos (by omega)] at heq
    refine ⟨(first, top), mem_segments.mpr (Or.inr heq), ?_, hlt⟩
    dsimp only
    omega

theorem pairwise_segments (base top : Word) :
    (segments base top).Pairwise fun r r' => r.2.toNat ≤ r'.1.toNat := by
  rw [segments, List.pairwise_append]
  refine ⟨?_, ?_, ?_⟩
  · cases lowerSegment base top <;> simp
  · cases upperSegment base top <;> simp
  · rintro ⟨start, stop⟩ hr ⟨start', stop'⟩ hr'
    obtain ⟨-, -, -, hstop⟩ := lowerSegment_eq_some (Option.mem_toList.mp hr)
    obtain ⟨hstart, -⟩ := upperSegment_eq_some (Option.mem_toList.mp hr')
    dsimp only
    omega

/-- The pages of the parts are the canonical pages between the base and the top. -/
theorem exists_inside_segments_iff (hb : base.toNat % 4096 = 0) (ht : IsTop top) :
    (∃ r ∈ segments base top, Inside r.1 r.2 y) ↔ y.toNat % 4096 = 0 ∧
      isCanonical y = true ∧ base.toNat ≤ y.toNat ∧ y.toNat < top.toNat := by
  constructor
  · rintro ⟨r, hr, hy⟩
    obtain ⟨ha, hle, hstop⟩ := accepted_of_mem_segments hb ht hr
    have hlow := hy.le
    have hhigh := hy.lt
    exact ⟨hy.aligned, ha.isCanonical hlow hhigh, by omega, by omega⟩
  · rintro ⟨hal, hc, hle, hlt⟩
    obtain ⟨r, hr, hlow, hhigh⟩ := exists_segment hc hle hlt
    exact ⟨r, hr, hlow, hhigh, hal⟩

end Canonical

end Sandbox
