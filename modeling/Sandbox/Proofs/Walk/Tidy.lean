import Sandbox.Proofs.Walk.Pages

/-! # Walks that tidy up

A walk that releases emptied arrays and allocates none leaves no empty array of the space
where it has been, even if there were some before.
-/

namespace Sandbox

namespace Level

/-- Of two arrays on the way to an address, one lies on the way to the other, or below the
slot that leads on. -/
theorem path_cases (l l' : Level) (z : Word) : l'.path z <:+ l.path z ∨
    ∃ child, Below child l ∧ child.path z <:+ l'.path z := by
  cases l
  · exact Or.inl (l'.path_suffix_pte z)
  · cases l'
    · exact Or.inr ⟨_, .pte, List.suffix_rfl⟩
    · exact Or.inl List.suffix_rfl
    · exact Or.inl ⟨[pud.index z], rfl⟩
    · exact Or.inl (List.nil_suffix)
  · cases l'
    · exact Or.inr ⟨_, .pmd, ⟨[pmd.index z], rfl⟩⟩
    · exact Or.inr ⟨_, .pmd, List.suffix_rfl⟩
    · exact Or.inl List.suffix_rfl
    · exact Or.inl (List.nil_suffix)
  · cases l'
    · exact Or.inr ⟨_, .pud, ⟨[pmd.index z, pud.index z], rfl⟩⟩
    · exact Or.inr ⟨_, .pud, ⟨[pud.index z], rfl⟩⟩
    · exact Or.inr ⟨_, .pud, List.suffix_rfl⟩
    · exact Or.inl (List.nil_suffix)

end Level

namespace Walk

open Site (Vacant)

variable {α : Type} {A : Architecture} {S : List (AddressSpace A)} {s : AddressSpace A}
  {plan : Plan α} {start stop x y z : Word} {m m' : Memory} {T : List (Fin 512) → Prop}
  {p q : List (Fin 512)} {a b : PhysicalAddress} {i : Fin 512} {w : Word}

def Passed (start stop : Word) (q : List (Fin 512)) : Prop :=
  ∃ (l : Level) (z : Word), start.toNat ≤ z.toNat ∧ z.toNat < stop.toNat ∧ q = l.path z

theorem Passed.exists_inside (h : Passed start stop q) (ha : Accepted start stop) :
    ∃ (l : Level) (y : Word), Inside start stop y ∧ q = l.path y := by
  obtain ⟨l, z, hle, hlt, rfl⟩ := h
  have haligned := ha.aligned
  obtain ⟨y, hy⟩ : ∃ y : Word, y.toNat = z.toNat / 4096 * 4096 :=
    ⟨.ofNatLT _ (by omega), BitVec.toNat_ofNatLT _ _⟩
  have hpath : l.path z = l.path y := by
    apply Level.path_congr
    cases l <;> simp only [Level.shift] <;> omega
  exact ⟨l, y, ⟨by omega, by omega, by omega⟩, hpath⟩

/-- Arrays of the space at the end of some paths hold a valid entry, the root aside. -/
def Tidy (s : AddressSpace A) (m : Memory) (T : List (Fin 512) → Prop) : Prop :=
  ∀ q b, q ≠ [] → s.Owns m q b → T q → ¬ Vacant m A.codec b

theorem Tidy.mono {T' : List (Fin 512) → Prop} (h : Tidy s m T) (hT : ∀ q, T' q → T q) :
    Tidy s m T' :=
  fun q b hq ho ht => h q b hq ho (hT q ht)

/-- While a walk is in an array, the arrays on the way to it may be empty. -/
def TidyBut (s : AddressSpace A) (start : Word) (T : List (Fin 512) → Prop)
    (p : List (Fin 512)) (x : Word) (m : Memory) : Prop :=
  Tidy s m fun q => (T q ∨ Passed start x q) ∧ ¬ q <:+ p

theorem vacant_congr (h : ∀ j, m'.entry b j = m.entry b j) :
    Vacant m' A.codec b ↔ Vacant m A.codec b := by
  unfold Vacant
  simp only [h]

theorem TidyBut.setEntry (h : TidyBut s start T p x m) (hsite : Site S m s p a i)
    (hp : p.length = 3) : TidyBut s start T p x (m.setEntry a i w) := by
  intro q b hq ho ht
  rw [hsite.owns_setEntry hp hsite.mem] at ho
  rw [vacant_congr]
  · exact h q b hq ho ht
  · intro j
    rw [hsite.entry_setEntry, if_neg]
    rintro ⟨rfl, -⟩
    obtain ⟨-, rfl⟩ := hsite.intact.unique s hsite.mem s hsite.mem q p b ho hsite.owns
    exact ht.2 List.suffix_rfl

/-- Passed addresses of the slot that was left lie on the way to it, or below it. -/
theorem TidyBut.advance {l : Level} (h : TidyBut s start T (l.path x) x m)
    (hpast : Past stop l.shift x y)
    (hbelow : ∀ child, Level.Below child l → s.arrayAt m (child.path x) = none) :
    TidyBut s start T (l.path x) y m := by
  rintro q b hq ho ⟨ht | ⟨l', z, hz, hzy, rfl⟩, hn⟩
  · exact h q b hq ho ⟨Or.inl ht, hn⟩
  · by_cases hzx : z.toNat < x.toNat
    · exact h _ b hq ho ⟨Or.inr ⟨l', z, hz, hzx, rfl⟩, hn⟩
    · have hblock := hpast.same_block (Nat.le_of_not_lt hzx) hzy
      have hpath := Level.path_congr_slot hblock
      rcases l.path_cases l' z with hsuf | ⟨child, hb, hsuf⟩
      · exact absurd (hpath ▸ hsuf) hn
      · have hnone := hbelow child hb
        rw [hb.path_eq, ← hpath, ← Level.index_congr hblock, ← hb.path_eq] at hnone
        have harr := ho.arrayAt_eq
        rw [AddressSpace.arrayAt_none_of_suffix hnone hsuf] at harr
        cases harr

theorem Keeps.tidy (hs : Scope S s plan start) (hreclaim : plan.reclaim = true)
    (hal : plan.visitor.allocates = false) (T : List (Fin 512) → Prop) :
    Keeps S s plan start (fun p x _ m => TidyBut s start T p x m) (fun _ _ => True)
      (fun _ _ => True) where
  skip := by
    intro m l a x y r ha _ hv hpast hj
    apply hj.advance hpast
    intro child hb
    rw [hb.path_eq, AddressSpace.arrayAt_cons, ha.arrayAt_eq, Option.bind_some,
      EntryCodec.child?_eq_none hv]
  visit := by
    intro m a x r v ha _ _ _ hj
    unfold After
    split
    · exact hj.advance (ha.inside.past hs.accepted.stop_le) nofun
    · trivial
  write := by
    intro m a x r v w ha hsite _ _ _ hj
    unfold After
    split
    · exact (hj.setEntry hsite rfl).advance (ha.inside.past hs.accepted.stop_le) nofun
    · trivial
  abort _ _ _ _ := trivial
  full _ _ _ _ _ _ := trivial
  attach := by
    intro m l child a x r w _ _ _ hal'
    rw [hal] at hal'
    cases hal'
  enter := by
    intro m l child a b x r hb _ _ hj
    apply hj.mono
    rintro q ⟨ht, hn⟩
    refine ⟨ht, fun hsuf => hn ?_⟩
    rw [hb.path_eq]
    exact hsuf.trans (List.suffix_cons _ _)
  leave := by
    rintro m l child a b x y r hb ha hc - hkeep hj q b' hq ho ⟨ht, hn⟩
    rw [hreclaim, hal] at hkeep
    have hvac := (hkeep.resolve_left nofun).resolve_left nofun
    by_cases hsuf : q <:+ child.path x
    · have hqc : q = child.path x := by
        rw [hb.path_eq] at hsuf ⊢
        exact (List.suffix_cons_iff.mp hsuf).resolve_right hn
      subst hqc
      obtain rfl := Option.some.inj (ho.arrayAt_eq.symm.trans hc.arrayAt_eq)
      exact hvac
    · exact hj q b' hq ho ⟨ht, hsuf⟩
  detach := by
    rintro m l child a b x y r hb ha hsite hc - - hvac hj q b' hq ho ⟨ht, hn⟩
    have hbelow := hc.arrayAt_below hb
    obtain ⟨hold, hne⟩ := (hsite.owns_detach hbelow hvac hsite.mem).mp ho
    have hsuf : ¬ q <:+ child.path x := by
      rw [hb.path_eq, List.suffix_cons_iff]
      rintro (rfl | hsuf)
      · exact hne ⟨rfl, rfl⟩
      · exact hn hsuf
    rw [vacant_congr]
    · exact hj q b' hq hold ⟨ht, hsuf⟩
    · intro j
      rw [hsite.entry_detach, if_neg]
      rintro ⟨rfl, -⟩
      obtain ⟨-, rfl⟩ := hsite.intact.unique s hsite.mem s hsite.mem q _ b' hold hsite.owns
      exact hn List.suffix_rfl

end Walk

end Sandbox
