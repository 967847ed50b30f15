import Sandbox.Proofs.Space.Shortage

/-! # Recovery

Unmapping a range gives back the arrays on the way into it that lead to no page. So it ends
with the same pages and as many arrays, whether or not a mapping of the range was cut short
before.
-/

namespace Sandbox

open AddressSpace Walk

variable {A : Architecture} {S : List (AddressSpace A)} {s : AddressSpace A} {m m' u u' : Memory}
  {start stop : Word} {o : MapOptions} {distance x : Word} {p q : List (Fin 512)}
  {b : PhysicalAddress}

namespace Memory

theorem liveCount_eq_ncard (m : Memory) : m.liveCount = {b | b ∈ m.live}.ncard := by
  have hnodup : m.live.toList.Nodup := Std.ExtTreeSet.distinct_toList.imp fun h he => by
    subst he
    exact h Std.ReflCmp.compare_self
  have hset : {b | b ∈ m.live} = (m.live.toList.toFinset : Set PhysicalAddress) := by
    ext b
    simp [Std.ExtTreeSet.mem_toList]
  rw [hset, Set.ncard_coe_finset, List.toFinset_card_of_nodup hnodup,
    Std.ExtTreeSet.length_toList]
  rfl

theorem finite_live (m : Memory) : {b | b ∈ m.live}.Finite := by
  apply (m.live.toList.toFinset : Finset PhysicalAddress).finite_toSet.subset
  intro b hb
  simpa [Std.ExtTreeSet.mem_toList] using hb

end Memory

namespace AddressSpace

theorem mem_ownPaths_of_suffix (h : q ∈ s.ownPaths m) (hp : p <:+ q) : p ∈ s.ownPaths m := by
  obtain ⟨b, ho⟩ := h
  cases harr : s.arrayAt m p with
  | none =>
    have hnone := ho.arrayAt_eq
    rw [arrayAt_none_of_suffix harr hp] at hnone
    cases hnone
  | some a => exact ⟨a, ownsPath_of_suffix ho.ownsPath hp, hp.length_le.trans ho.length_le, harr⟩

/-- What is left of a swept range leads to pages, or out of the range. -/
theorem ownPaths_subset (hi : Intact S u) (hs : s ∈ S) (hswept : Tidy s u (Passed start stop))
    (hmaps : ∀ y, s.Maps u y → s.Maps u' y)
    (hspared : ∀ q, ¬ Passed start stop q → q ∈ s.ownPaths u → q ∈ s.ownPaths u') :
    s.ownPaths u ⊆ s.ownPaths u' := by
  rintro q ⟨b, ho⟩
  by_cases hq : q = []
  · subst hq
    exact ⟨s.root, Intact.root_owns s u'⟩
  · rcases hswept.exists_maps_or hi hs hq ho with ⟨y, hy, hsuf⟩ | ⟨q', b', hn, ho', hsuf⟩
    · exact (hmaps y hy).exists_owns (ownsSlot_of_suffix hq ho.ownsPath hsuf) hsuf
    · exact mem_ownPaths_of_suffix (hspared q' hn ⟨b', ho'⟩) hsuf

theorem liveCount_eq_of_ownPaths (hi : Intact S u) (hi' : Intact S u') (hs : s ∈ S)
    (hothers : ∀ t ∈ S, t ≠ s → ∀ q b, t.Owns u' q b ↔ t.Owns u q b)
    (hpaths : s.ownPaths u' = s.ownPaths u) : u'.liveCount = u.liveCount := by
  have hcount {v : Memory} (hv : Intact S v)
      (hsame : ∀ t ∈ S, t ≠ s → ∀ q b, t.Owns v q b ↔ t.Owns u q b) : v.liveCount =
        (s.ownPaths v).ncard + {b | ∃ t ∈ S, t ≠ s ∧ ∃ q, t.Owns u q b}.ncard := by
    have hunion : {b | b ∈ v.live} =
        s.ownArrays v ∪ {b | ∃ t ∈ S, t ≠ s ∧ ∃ q, t.Owns u q b} := by
      ext b
      change b ∈ v.live ↔ _
      rw [hv.live_iff]
      constructor
      · rintro ⟨t, ht, q, ho⟩
        by_cases hts : t = s
        · exact Or.inl ⟨q, hts ▸ ho⟩
        · exact Or.inr ⟨t, ht, hts, q, (hsame t ht hts q b).mp ho⟩
      · rintro (⟨q, ho⟩ | ⟨t, ht, hts, q, ho⟩)
        · exact ⟨s, hs, q, ho⟩
        · exact ⟨t, ht, q, (hsame t ht hts q b).mpr ho⟩
    have hdisjoint : Disjoint (s.ownArrays v) {b | ∃ t ∈ S, t ≠ s ∧ ∃ q, t.Owns u q b} := by
      rw [Set.disjoint_left]
      rintro b ⟨q, ho⟩ ⟨t, ht, hts, q', ho'⟩
      exact hts (hv.unique t ht s hs q' q b ((hsame t ht hts q' b).mpr ho') ho).1
    have hfinite := v.finite_live
    rw [hunion, Set.finite_union] at hfinite
    rw [v.liveCount_eq_ncard, hunion, Set.ncard_union_eq hdisjoint hfinite.1 hfinite.2,
      card_ownArrays hv hs]
  rw [hcount hi' hothers, hcount hi fun _ _ _ _ _ => Iff.rfl, hpaths]

/-- Unmapping ends the same whether or not a mapping of the range was cut short before. -/
theorem CutShort.recovers (h : CutShort S s start stop o distance x m m') (hs : s ∈ S)
    (hu : Pruned S s start stop m u) (hu' : Pruned S s start stop m' u')
    (hclear : ClearedUpTo start (s.leafAt m) (pageEnd stop) (s.leafAt u))
    (hclear' : ClearedUpTo start (s.leafAt m') (pageEnd stop) (s.leafAt u')) :
    (∀ t ∈ S, ∀ y, IsPage y → t.leafAt u' y = t.leafAt u y) ∧ u'.liveCount = u.liveCount := by
  obtain ⟨new, hg⟩ := h.gained
  obtain ⟨freed, hr⟩ := hu.released
  obtain ⟨freed', hr'⟩ := hu'.released
  have hleaf (y : Word) (hy : IsPage y) : s.leafAt u' y = s.leafAt u y := by
    rw [hclear y hy, hclear' y hy]
    split
    · rfl
    · next hn => exact h.framed.own y hy.canonical hn
  have hmaps (y : Word) : s.Maps u' y ↔ s.Maps u y := by
    apply and_congr_right
    intro hy
    rw [hleaf y hy]
  have hothers (t : AddressSpace A) (ht : t ∈ S) (hne : t ≠ s) :
      t.Untouched m u ∧ t.Untouched m u' :=
    ⟨hu.framed.others t ht hne, (h.framed.others t ht hne).trans (hu'.framed.others t ht hne)⟩
  refine ⟨fun t ht y hy => ?_, ?_⟩
  · by_cases hts : t = s
    · exact hts ▸ hleaf y hy
    · rw [(hothers t ht hts).1.leafAt_eq, (hothers t ht hts).2.leafAt_eq]
  · apply liveCount_eq_of_ownPaths hu.intact hu'.intact hs
    · intro t ht hne q b
      rw [(hothers t ht hne).1.owns_iff, (hothers t ht hne).2.owns_iff]
    · apply Set.Subset.antisymm
      · apply ownPaths_subset hu'.intact hs hu'.swept fun y => (hmaps y).mp
        rintro q hq ⟨b, ho⟩
        -- A path off the range that is owned now was not attached by the mapping.
        by_cases hold : ∃ b, s.Owns m q b
        · obtain ⟨b, ho⟩ := hold
          exact ⟨b, hu.spared q b hq ho⟩
        · exact absurd (hg.passed q ((hg.mem_iff q).mpr ⟨⟨b, hr'.owns q b ho⟩, hold⟩)) hq
      · apply ownPaths_subset hu.intact hs hu.swept fun y => (hmaps y).mpr
        rintro q hq ⟨b, ho⟩
        exact ⟨b, hu'.spared q b hq (hg.owns q b (hr.owns q b ho))⟩

end AddressSpace

end Sandbox
