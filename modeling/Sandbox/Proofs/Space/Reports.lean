import Sandbox.Proofs.Space.Change

/-! # What a change reports

A walk that changes a space collects one bit. Page after page the bit stays the answer to one
question: whether a page that was mapped before now shows something else.
-/

namespace Sandbox

open Walk

variable {A : Architecture} {S : List (AddressSpace A)} {s : AddressSpace A} {m m₀ : Memory}
  {start stop x w w' : Word} {o : MapOptions} {f f₀ f' : Word → Word} {r r' : Bool} {n : Nat}

namespace AddressSpace

/-- The page was mapped, and is not mapped any more or is mapped differently. -/
def Replaced (A : Architecture) (x w w' : Word) : Prop :=
  A.codec.isValid w = true ∧ mapping? A x w' ≠ mapping? A x w

theorem mapping?_of_isValid (h : A.codec.isValid w = true) :
    mapping? A x w = some ⟨⟨x⟩, A.codec.address w, pageSize, A.codec.options w⟩ :=
  if_pos h

theorem mapping?_eq_none (h : A.codec.isValid w = false) : mapping? A x w = none := by
  rw [mapping?, if_neg (by rw [h]; exact Bool.false_ne_true)]

theorem not_replaced_self (x w : Word) : ¬ Replaced A x w w :=
  fun h => h.2 rfl

theorem replaced_iff : Replaced A x w w' ↔
    ∃ t, mapping? A x w = some t ∧ mapping? A x w' ≠ some t := by
  unfold Replaced
  constructor
  · rintro ⟨hv, hne⟩
    exact ⟨_, mapping?_of_isValid hv, mapping?_of_isValid (x := x) hv ▸ hne⟩
  · rintro ⟨t, ht, hne⟩
    refine ⟨?_, ht.symm ▸ hne⟩
    by_contra hv
    rw [mapping?_eq_none (Bool.eq_false_iff.mpr hv)] at ht
    cases ht

end AddressSpace

open AddressSpace

structure Visitor.Reports (A : Architecture) (v : Visitor Bool) : Prop where
  visit : ∀ {x w r u}, w = 0 ∨ A.codec.IsLeaf w →
    A.codec.isValid w = true ∨ v.allocates = true → v.visit x w r = .ok u →
    u.proceed = true ∧ (u.result = true ↔ r = true ∨ Replaced A x w (u.entry.getD w))
  leaves : ∀ x w r u w', v.visit x w r = .ok u → u.entry = some w' → w' = 0 ∨ A.codec.IsLeaf w'

namespace Visitor

theorem reports_unmap (A : Architecture) : Visitor.unmap.Reports A where
  leaves _ _ _ _ _ := unmap_leaves
  visit := by
    rintro x w r u - hval hv
    have hvalid := hval.resolve_right Bool.false_ne_true
    cases hv
    refine ⟨rfl, iff_of_true rfl (Or.inr ⟨hvalid, ?_⟩)⟩
    rw [Option.getD_some, mapping?_eq_none A.lawful.isValid_zero, mapping?_of_isValid hvalid]
    exact nofun

theorem reports_map (ho : o.access.any = true) (start : Word) (physical : PhysicalAddress) :
    (Visitor.map A.codec start physical o.normalized).Reports A where
  leaves _ _ _ _ _ := map_leaves (MapOptions.any_normalized ho)
  visit := by
    rintro x w r u - - hv
    obtain ⟨leaf, hleaf, rfl⟩ := map_visit (MapOptions.any_normalized ho) hv
    refine ⟨rfl, ?_⟩
    rw [Bool.or_eq_true, Bool.and_eq_true, Option.getD_some]
    apply or_congr_right
    apply and_congr_right
    intro hvalid
    rw [mapping?_of_isValid hvalid, mapping?_of_isValid (hleaf.isValid A.lawful),
      hleaf.address_eq A.lawful, hleaf.options_eq A.lawful, MapOptions.normalized_normalized]
    simp only [Bool.or_eq_true, bne_iff_ne, ne_eq, Option.some.injEq, Mapping.mk.injEq, true_and]
    rw [not_and_or, eq_comm, eq_comm (a := A.codec.options w)]

theorem reports_protect (ho : o.access.any = true) :
    (Visitor.protect A.codec o.normalized).Reports A where
  leaves _ _ _ _ _ := protect_leaves (MapOptions.any_normalized ho)
  visit := by
    rintro x w r u hw hval hv
    have hl := isLeaf_of_visited hw hval
    obtain ⟨b, o', hof⟩ := hl
    have hvalid := hof.isValid A.lawful
    rcases protect_cases (MapOptions.any_normalized ho) hv with ⟨-, rfl⟩ | ⟨hne, leaf, hleaf, rfl⟩
    · exact ⟨rfl, (or_iff_left (not_replaced_self x w)).symm⟩
    · refine ⟨rfl, iff_of_true rfl (Or.inr ⟨hvalid, ?_⟩)⟩
      rw [Option.getD_some, mapping?_of_isValid hvalid,
        mapping?_of_isValid (hleaf.isValid A.lawful), hleaf.options_eq A.lawful,
        MapOptions.normalized_normalized]
      intro heq
      simp only [Option.some.injEq, Mapping.mk.injEq, true_and] at heq
      exact hne heq.2.symm

end Visitor

namespace AddressSpace

/-- Between `start` and `n` pages may have changed, and the bit tells whether one that was
mapped did. -/
structure Reported (A : Architecture) (start : Word) (f₀ : Word → Word) (n : Nat) (r : Bool)
    (f : Word → Word) : Prop where
  same : ∀ y, IsPage y → ¬ (start.toNat ≤ y.toNat ∧ y.toNat < n) → f y = f₀ y
  iff : r = true ↔ ∃ y, IsPage y ∧ (start.toNat ≤ y.toNat ∧ y.toNat < n) ∧
    Replaced A y (f₀ y) (f y)

theorem Reported.refl (A : Architecture) (start : Word) (f : Word → Word) :
    Reported A start f start.toNat false f := by
  refine ⟨fun _ _ _ => rfl, ?_⟩
  constructor
  · exact nofun
  · rintro ⟨y, -, -, hy⟩
    exact (not_replaced_self y (f y) hy).elim

theorem Reported.step (h : Reported A start f₀ x.toNat r f) (hx : IsPage x)
    (hle : start.toNat ≤ x.toNat) (hf : ∀ y, IsPage y → f' y = if y = x then w else f y)
    (hr : r' = true ↔ r = true ∨ Replaced A x (f x) w) :
    Reported A start f₀ (x.toNat + 4096) r' f' := by
  have hseen {y : Word} (hy : IsPage y) := seen_step hx.aligned hy.aligned hle
  have hold : f x = f₀ x := h.same x hx (by omega)
  constructor
  · intro y hy hn
    rw [hseen hy, not_or] at hn
    rw [hf y hy, if_neg hn.1]
    exact h.same y hy hn.2
  · rw [hr, h.iff, hold]
    constructor
    · rintro (⟨y, hy, hin, hrep⟩ | hrep)
      · refine ⟨y, hy, (hseen hy).mpr (Or.inr hin), ?_⟩
        rwa [hf y hy, if_neg (by rintro rfl; omega)]
      · refine ⟨x, hx, (hseen hx).mpr (Or.inl rfl), ?_⟩
        rwa [hf x hx, if_pos rfl]
    · rintro ⟨y, hy, hin, hrep⟩
      rw [hf y hy] at hrep
      rcases (hseen hy).mp hin with rfl | hin
      · rw [if_pos rfl] at hrep
        exact Or.inr hrep
      · rw [if_neg (by rintro rfl; omega)] at hrep
        exact Or.inl ⟨y, hy, hin, hrep⟩

theorem reported_pages {v : Visitor Bool} (ha : Accepted start stop) (hv : v.Reports A)
    (f₀ : Word → Word) :
    PageSteps A ⟨A.codec, v, true, stop⟩ start (Reported A start f₀) (fun _ _ => False)
      (fun _ _ => True) where
  skip := by
    rintro x r f hx - - h
    apply h.step (ha.isPage hx) hx.le (w := f x)
    · intro y _
      split
      · next hyx => rw [hyx]
      · rfl
    · exact (or_iff_left (not_replaced_self x (f x))).symm
  visit := by
    rintro x r f u hx hleaf hval hu h
    obtain ⟨hgo, hresult⟩ := hv.visit hleaf hval hu
    rw [if_pos hgo]
    exact h.step (ha.isPage hx) hx.le (fun y hy => rewrite_eq_getD (ha.isPage hx) hy u.entry)
      hresult
  abort _ _ _ _ _ := trivial
  full _ _ _ _ := trivial

/-- A walk that returns reports whether it replaced a page. -/
theorem report_triple {v : Visitor Bool} (hs : s ∈ S) (he : Editable S s start stop)
    (ha : Accepted start stop) (hv : v.Reports A) (m₀ : Memory) :
    Triple A.codec (fun m => m = m₀ ∧ Intact S m) (s.change v start stop false)
      (fun r m => Intact S m ∧ Reported A start (s.leafAt m₀) (pageEnd stop) r (s.leafAt m))
      (fun _ _ => True) := by
  have hscope : Scope S s ⟨A.codec, v, true, stop⟩ start := ⟨rfl, hs, ha, hv.leaves, Or.inr he⟩
  refine (range_triple hscope (Keeps.pages hscope (reported_pages ha hv (s.leafAt m₀)))
    false).conseq ?_ ?_ fun _ _ _ => trivial
  · rintro m ⟨rfl, h⟩
    refine ⟨h, ?_⟩
    rw [ha.seen_start]
    exact .refl A start (s.leafAt m)
  · rintro r m ⟨h, ⟨y, (hy : stop.toNat ≤ y.toNat), hr⟩ | hk⟩
    · rw [seen_of_stop_le hy] at hr
      exact ⟨h, hr⟩
    · exact hk.elim

end AddressSpace

end Sandbox
