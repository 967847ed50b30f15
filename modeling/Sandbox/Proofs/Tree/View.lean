import Sandbox.Proofs.Tree.Intact

/-! # What a space shows

A space shows what lies in the arrays that are reached from its root, shared ones included.
As long as they hold what they held, its paths lead where they led, its leaves are what they
were, and so is every word of its tree.
-/

namespace Sandbox

namespace AddressSpace

variable {A : Architecture} {S S' : List (AddressSpace A)} {s t : AddressSpace A}
  {m m' m'' : Memory} {p q : List (Fin 512)} {a b : PhysicalAddress}

/-- Each array that the space reaches holds what it held. -/
def Untouched (s : AddressSpace A) (m m' : Memory) : Prop :=
  ∀ p a, p.length ≤ 3 → s.arrayAt m p = some a → ∀ i, m'.entry a i = m.entry a i

theorem owns_congr (h : t.arrayAt m' q = t.arrayAt m q) : t.Owns m' q b ↔ t.Owns m q b :=
  ⟨fun ⟨h₁, h₂, h₃⟩ => ⟨h₁, h₂, h ▸ h₃⟩, fun ⟨h₁, h₂, h₃⟩ => ⟨h₁, h₂, h.symm ▸ h₃⟩⟩

namespace Untouched

theorem refl (s : AddressSpace A) (m : Memory) : s.Untouched m m :=
  fun _ _ _ _ _ => rfl

theorem arrayAt_eq (h : s.Untouched m m') (hp : p.length ≤ 3) :
    s.arrayAt m' p = s.arrayAt m p :=
  arrayAt_eq_of_same fun j q b hq hb => h q b (Nat.le_of_succ_le (hq.length_le.trans hp)) hb j

theorem trans (h : s.Untouched m m') (h' : s.Untouched m' m'') : s.Untouched m m'' := by
  intro p a hp ha i
  rw [h' p a hp (by rw [h.arrayAt_eq hp, ha]), h p a hp ha]

theorem owns_iff (h : s.Untouched m m') : s.Owns m' p a ↔ s.Owns m p a :=
  ⟨fun ho => (owns_congr (h.arrayAt_eq ho.length_le)).mp ho,
    fun ho => (owns_congr (h.arrayAt_eq ho.length_le)).mpr ho⟩

theorem leafAt_eq (h : s.Untouched m m') (y : Word) : s.leafAt m' y = s.leafAt m y := by
  have hlen := (Level.length_path .pte y).le
  exact leafAt_eq_of_same (h.arrayAt_eq hlen) fun b hb => h _ b hlen hb _

end Untouched

theorem live_eq_of_untouched (hi : Intact S m) (hi' : Intact S m')
    (h : ∀ t ∈ S, t.Untouched m m') : m'.live = m.live := by
  ext b
  rw [hi'.live_iff, hi.live_iff]
  constructor
  · rintro ⟨t, ht, p, ho⟩
    exact ⟨t, ht, p, (h t ht).owns_iff.mp ho⟩
  · rintro ⟨t, ht, p, ho⟩
    exact ⟨t, ht, p, (h t ht).owns_iff.mpr ho⟩

/-! ## Words of a tree -/

theorem wordsBelow_pte (m : Memory) (a : PhysicalAddress) (path : List Nat) :
    wordsBelow A m .pte a path = (List.finRange 512).flatMap fun i =>
      if m.entry a i = 0 then [] else [(path ++ [i.val], m.entry a i)] := by
  simp only [wordsBelow, Level.ascend]

theorem wordsBelow_below {child l : Level} (hb : Level.Below child l) (m : Memory)
    (a : PhysicalAddress) (path : List Nat) :
    wordsBelow A m l a path = (List.finRange 512).flatMap fun i =>
      if m.entry a i = 0 then []
      else (path ++ [i.val], m.entry a i) ::
        if A.codec.isIntermediate (m.entry a i) = true ∧
            m.live.contains (A.codec.address (m.entry a i)) = true
        then wordsBelow A m child (A.codec.address (m.entry a i)) (path ++ [i.val])
        else [] := by
  cases hb <;> simp only [wordsBelow, Level.ascend]

theorem arrayAt_cons_of_isIntermediate {i : Fin 512} (ha : s.arrayAt m p = some a)
    (h : A.codec.isIntermediate (m.entry a i) = true) :
    s.arrayAt m (i :: p) = some (A.codec.address (m.entry a i)) := by
  rw [arrayAt_cons, ha, Option.bind_some, EntryCodec.child?, if_pos h]

/-- A space shows the same words as long as its arrays hold what they held. -/
theorem Untouched.words_eq (h : s.Untouched m m') (hi : Intact S m) (hs : s ∈ S)
    (hi' : Intact S' m') (hs' : s ∈ S') : s.words m' = s.words m := by
  have hcontains {p : List (Fin 512)} {a : PhysicalAddress} (hp : p.length ≤ 3)
      (ha : s.arrayAt m p = some a) : m'.live.contains a = true :=
    hi'.contains_live hs' hp (by rw [h.arrayAt_eq hp, ha])
  have hbelow : ∀ (l : Level) (p : List (Fin 512)) (a : PhysicalAddress) (path : List Nat),
      p.length = l.depth → s.arrayAt m p = some a →
      wordsBelow A m' l a path = wordsBelow A m l a path := by
    apply Level.ascending
    · intro p a path hp ha
      rw [wordsBelow_pte, wordsBelow_pte]
      simp only [h p a (by rw [hp]; decide) ha]
    · intro child l hb ih p a path hp ha
      have hdepth := hb.depth_lt
      rw [wordsBelow_below hb, wordsBelow_below hb]
      congr 1
      funext i
      rw [h p a (by omega) ha]
      refine if_congr Iff.rfl rfl (congrArg (List.cons _) ?_)
      by_cases hw : A.codec.isIntermediate (m.entry a i) = true
      · have hchild := arrayAt_cons_of_isIntermediate ha hw
        have hlen : (i :: p).length = child.depth := by rw [List.length_cons, hp, hb.depth_eq]
        have hle := hlen.trans_le child.depth_le
        rw [if_pos ⟨hw, hcontains hle hchild⟩, if_pos ⟨hw, hi.contains_live hs hle hchild⟩,
          ih _ _ _ hlen hchild]
      · rw [if_neg fun hc => hw hc.1, if_neg fun hc => hw hc.1]
  have hroot := s.arrayAt_nil m
  unfold words
  rw [if_pos (hcontains (by simp) hroot), if_pos (hi.contains_live hs (by simp) hroot)]
  exact hbelow .pgd [] s.root [] rfl (s.arrayAt_nil m)

end AddressSpace

end Sandbox
