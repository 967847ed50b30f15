import Sandbox.Proofs.Walk.Books

/-! # Walks that change nothing

A walk over pages that are as its visitor wants them finds no array to attach and none to give
back, and writes into each slot what it holds. So it leaves the very memory that it started from.
-/

namespace Sandbox

namespace Walk

variable {α : Type} {A : Architecture} {S : List (AddressSpace A)} {s : AddressSpace A}
  {plan : Plan α} {v : Visitor α} {start stop : Word} {m : Memory} {r : α}

/-- The pages of the range are as the visitor wants them, and no array on the way is vacant. -/
structure Settled (v : Visitor α) (r : α) (s : AddressSpace A) (start stop : Word) (m : Memory) :
    Prop where
  visit : ∀ x, Inside start stop x →
    A.codec.isValid (s.leafAt m x) = true ∨ v.allocates = true →
    ∃ e, v.visit x (s.leafAt m x) r = .ok { entry := e, result := r } ∧
      ∀ w, e = some w → w = s.leafAt m x
  mapped : v.allocates = true → ∀ x, Inside start stop x →
    A.codec.isValid (s.leafAt m x) = true
  tidy : Tidy s m (Passed start stop)

theorem Keeps.still (hset : Settled plan.visitor r s start plan.stop m) :
    Keeps S s plan start (fun _ _ r' m' => m' = m ∧ r' = r) (fun _ _ => False)
      (fun _ _ => False) where
  skip _ _ _ _ hj := hj
  visit := by
    rintro m a x r u ha hval hu he ⟨rfl, rfl⟩
    rw [← ha.leafAt_eq] at hval hu
    obtain ⟨e, hvisit, -⟩ := hset.visit x ha.inside hval
    obtain rfl := Except.ok.inj (hvisit.symm.trans hu)
    exact ⟨rfl, rfl⟩
  write := by
    rintro m a x r u w ha hsite hval hu he ⟨rfl, rfl⟩
    rw [← ha.leafAt_eq] at hval hu
    obtain ⟨e, hvisit, hsame⟩ := hset.visit x ha.inside hval
    obtain rfl := Except.ok.inj (hvisit.symm.trans hu)
    refine ⟨?_, rfl⟩
    rw [hsame w he, ha.leafAt_eq, Memory.setEntry_entry]
  abort := by
    rintro m a x r e ha hval he ⟨rfl, rfl⟩
    rw [← ha.leafAt_eq] at hval he
    obtain ⟨e', hvisit, -⟩ := hset.visit x ha.inside hval
    cases hvisit.symm.trans he
  full := by
    rintro m l child a x r hb ha hal hv - ⟨rfl, rfl⟩
    have hvalid := hset.mapped hal x ha.inside
    rw [ha.leafAt_eq_zero hv rfl, A.lawful.isValid_zero] at hvalid
    cases hvalid
  attach := by
    rintro m l child a x r w hb ha - hal hv - - - ⟨rfl, rfl⟩
    have hvalid := hset.mapped hal x ha.inside
    rw [ha.leafAt_eq_zero hv rfl, A.lawful.isValid_zero] at hvalid
    cases hvalid
  enter _ _ _ hj := hj
  leave _ _ _ _ _ hj := hj
  detach := by
    rintro m l child a b x y r hb ha hsite hc - - hvac ⟨rfl, rfl⟩
    have howns := hsite.owns_child (hc.arrayAt_below hb) (hb.length_path_lt x)
    have hpassed : Passed start plan.stop (l.index x :: l.path x) :=
      ⟨child, x, ha.inside.le, ha.inside.lt, (hb.path_eq x).symm⟩
    exact absurd hvac (hset.tidy _ b (List.cons_ne_nil _ _) howns hpassed)

/-- A walk over pages that are as its visitor wants them returns and changes nothing. -/
theorem range_still (hs : Scope S s plan start)
    (hset : Settled plan.visitor r s start plan.stop m) (hi : Intact S m)
    (hp : ((range plan s.root start r).final m).Placed A.codec) :
    (range plan s.root start r).outcome m = .ok r ∧ (range plan s.root start r).final m = m := by
  have htriple := range_triple hs (Keeps.still hset) r
  cases hout : (range plan s.root start r).outcome m with
  | error e => exact (htriple.of_error ⟨hi, rfl, rfl⟩ hp hout).2.elim
  | ok r' =>
    obtain ⟨-, ⟨-, -, hm, rfl⟩ | hf⟩ := htriple.of_ok ⟨hi, rfl, rfl⟩ hp hout
    · exact ⟨rfl, hm⟩
    · exact hf.elim

theorem tidy_of_mapped (hi : Intact S m) (hs : s ∈ S) (ha : Accepted start stop)
    (hmapped : ∀ x, Inside start stop x → A.codec.isValid (s.leafAt m x) = true) :
    Tidy s m (Passed start stop) := by
  intro q b _ ho hpassed
  obtain ⟨l, x, hx, rfl⟩ := hpassed.exists_inside ha
  exact not_vacant_of_valid (l := l) ⟨hi, hs, hx, ho.arrayAt_eq⟩ (hmapped x hx)

end Walk

end Sandbox
