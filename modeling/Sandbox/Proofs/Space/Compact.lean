import Mathlib.Data.List.Basic
import Sandbox.Proofs.Space.Change

/-! # Compact spaces

A space is compact if each array below its root lies on the way to a page that is mapped.
The pages that are mapped then determine the arrays of the space, and its leaves every word
of its tree.
-/

namespace Sandbox

open AddressSpace Walk

variable {A : Architecture} {S : List (AddressSpace A)} {s : AddressSpace A} {m m' : Memory}
  {T : List (Fin 512) → Prop} {p q : List (Fin 512)} {a b : PhysicalAddress} {x y : Word}

/-! ## Paths to pages -/

namespace Walk

theorem exists_page (i₀ i₁ i₂ i₃ : Fin 512) : ∃ y, IsPage y ∧ pagePath y = [i₀, i₁, i₂, i₃] := by
  have h₀ := i₀.isLt
  have h₁ := i₁.isLt
  have h₂ := i₂.isLt
  have h₃ := i₃.isLt
  have hlt : (if 256 ≤ i₃.val then 2 ^ 64 - 2 ^ 48 else 0) + i₃.val * 2 ^ 39 + i₂.val * 2 ^ 30 +
      i₁.val * 2 ^ 21 + i₀.val * 2 ^ 12 < 2 ^ 64 := by
    split <;> omega
  obtain ⟨y, hy⟩ : ∃ y : Word, y.toNat = (if 256 ≤ i₃.val then 2 ^ 64 - 2 ^ 48 else 0) +
      i₃.val * 2 ^ 39 + i₂.val * 2 ^ 30 + i₁.val * 2 ^ 21 + i₀.val * 2 ^ 12 :=
    ⟨.ofNatLT _ hlt, BitVec.toNat_ofNatLT _ _⟩
  refine ⟨y, ⟨?_, ?_⟩, ?_⟩
  · split at hy <;> omega
  · rw [Canonical.isCanonical_iff]
    split at hy <;> omega
  · simp only [pagePath, Level.path, List.cons.injEq, Fin.ext_iff, Level.index_val, Level.shift,
      and_true]
    split at hy <;> omega

theorem exists_page_at (hlen : p.length = 3) (i : Fin 512) :
    ∃ y, IsPage y ∧ Level.pte.path y = p ∧ Level.pte.index y = i := by
  obtain ⟨i₁, i₂, i₃, rfl⟩ := List.length_eq_three.mp hlen
  obtain ⟨y, hy, hpath⟩ := exists_page i i₁ i₂ i₃
  obtain ⟨hindex, hpath⟩ := List.cons.inj hpath
  exact ⟨y, hy, hpath, hindex⟩

theorem lt_maxEnd {y : Word} (hy : IsPage y) (h0 : Level.pte.index y = 0) :
    y.toNat < maxEnd.toNat := by
  have ha := hy.aligned
  have hlt := y.isLt
  rw [Fin.ext_iff, Level.index_val] at h0
  simp only [Level.shift, Fin.val_zero] at h0
  rw [toNat_maxEnd]
  omega

theorem exists_page_below (hq : q ≠ []) (hlen : q.length ≤ 3) : ∃ (l : Level) (y : Word),
    IsPage y ∧ y.toNat < maxEnd.toNat ∧ q = l.path y := by
  rcases q with _ | ⟨i, _ | ⟨j, _ | ⟨k, _ | ⟨n, q⟩⟩⟩⟩
  · exact absurd rfl hq
  · obtain ⟨y, hy, hp⟩ := exists_page 0 0 0 i
    simp only [pagePath, Level.path, List.cons.injEq, and_true] at hp
    exact ⟨.pud, y, hy, lt_maxEnd hy hp.1, by simp [Level.path, hp]⟩
  · obtain ⟨y, hy, hp⟩ := exists_page 0 0 i j
    simp only [pagePath, Level.path, List.cons.injEq, and_true] at hp
    exact ⟨.pmd, y, hy, lt_maxEnd hy hp.1, by simp [Level.path, hp]⟩
  · obtain ⟨y, hy, hp⟩ := exists_page 0 i j k
    simp only [pagePath, Level.path, List.cons.injEq, and_true] at hp
    exact ⟨.pte, y, hy, lt_maxEnd hy hp.1, by simp [Level.path, hp]⟩
  · simp only [List.length_cons] at hlen
    omega

theorem getLast?_path {l : Level} {y : Word} (h : l.path y ≠ []) :
    (l.path y).getLast? = some (Level.pgd.index y) := by
  cases l
  · rfl
  · rfl
  · rfl
  · exact absurd rfl h

theorem exists_level_of_suffix (h : q <:+ Level.pte.path y) : ∃ l : Level, q = l.path y := by
  rcases List.suffix_cons_iff.mp h with rfl | h
  · exact ⟨.pte, rfl⟩
  rcases List.suffix_cons_iff.mp h with rfl | h
  · exact ⟨.pmd, rfl⟩
  rcases List.suffix_cons_iff.mp h with rfl | h
  · exact ⟨.pud, rfl⟩
  · exact ⟨.pgd, List.suffix_nil.mp h⟩

end Walk

namespace AddressSpace

theorem ownsSlot_of_suffix (hq : q ≠ []) (hown : s.OwnsPath q) (hsuf : q <:+ Level.pte.path y) :
    s.OwnsSlot (Level.pgd.index y) := by
  obtain ⟨l, rfl⟩ := exists_level_of_suffix hsuf
  exact hown _ (getLast?_path hq)

def Maps (s : AddressSpace A) (m : Memory) (y : Word) : Prop :=
  IsPage y ∧ A.codec.isValid (s.leafAt m y) = true

/-- Each array below the root leads to a page that is mapped. -/
def Compact (s : AddressSpace A) (m : Memory) : Prop :=
  ∀ q b, q ≠ [] → s.Owns m q b → ∃ y, s.Maps m y ∧ q <:+ Level.pte.path y

theorem Maps.exists_owns (h : s.Maps m y) (hslot : s.OwnsSlot (Level.pgd.index y))
    (hsuf : q <:+ Level.pte.path y) : ∃ b, s.Owns m q b := by
  have hlen : q.length ≤ 3 := hsuf.length_le.trans (Level.length_path .pte y).le
  have hown : s.OwnsPath (Level.pte.path y) := fun i hi => Option.some.inj hi ▸ hslot
  cases hq : s.arrayAt m q with
  | none =>
    have hv := h.2
    rw [leafAt, arrayAt_none_of_suffix hq hsuf, A.lawful.isValid_zero] at hv
    cases hv
  | some b => exact ⟨b, ownsPath_of_suffix hown hsuf, hlen, hq⟩

end AddressSpace

/-! ## Tidy trees are compact -/

theorem Walk.Tidy.exists_valid (h : Tidy s m T) (hq : q ≠ []) (ho : s.Owns m q b) (ht : T q) :
    ∃ j, A.codec.isValid (m.entry b j) = true := by
  simpa only [Site.Vacant, not_forall, Bool.not_eq_false] using h q b hq ho ht

/-- An array that is not empty leads to a longer path, and in the end to a leaf, or to an array
that may be empty. -/
theorem Walk.Tidy.exists_maps_or (h : Tidy s m T) (hi : Intact S m) (hs : s ∈ S) (hq : q ≠ [])
    (ho : s.Owns m q b) : (∃ y, s.Maps m y ∧ q <:+ Level.pte.path y) ∨
      ∃ q' b', ¬ T q' ∧ s.Owns m q' b' ∧ q <:+ q' := by
  induction hn : 3 - q.length using Nat.strongRecOn generalizing q b with
  | _ n ih =>
    subst hn
    by_cases ht : T q
    swap
    · exact Or.inr ⟨q, b, ht, ho, List.suffix_rfl⟩
    obtain ⟨j, hj⟩ := h.exists_valid hq ho ht
    rcases Nat.lt_or_eq_of_le ho.length_le with hlt | hlen
    · rcases hi.pointers s hs q b ho hlt j with h0 | ⟨d, hd⟩
      · rw [h0, A.lawful.isValid_zero] at hj
        cases hj
      · have hbelow : s.Owns m (j :: q) d := by
          refine ⟨(ownsPath_cons hq).mpr ho.ownsPath, hlt, ?_⟩
          rw [arrayAt_cons, ho.arrayAt_eq, Option.bind_some, hd.child?_eq A.lawful]
        have hsuf := List.suffix_cons j q
        rcases ih _ (by rw [List.length_cons]; omega) (List.cons_ne_nil j q) hbelow rfl with
          ⟨y, hy, hsuf'⟩ | ⟨q', b', ht', ho', hsuf'⟩
        · exact Or.inl ⟨y, hy, hsuf.trans hsuf'⟩
        · exact Or.inr ⟨q', b', ht', ho', hsuf.trans hsuf'⟩
    · obtain ⟨y, hy, hpath, hindex⟩ := exists_page_at hlen j
      refine Or.inl ⟨y, ⟨hy, ?_⟩, hpath ▸ List.suffix_rfl⟩
      rwa [leafAt, hpath, ho.arrayAt_eq, hindex]

theorem Walk.Tidy.exists_maps (h : Tidy s m T) (hi : Intact S m) (hs : s ∈ S)
    (hT : ∀ q b, q ≠ [] → s.Owns m q b → T q) (hq : q ≠ []) (ho : s.Owns m q b) :
    ∃ y, s.Maps m y ∧ q <:+ Level.pte.path y := by
  refine (h.exists_maps_or hi hs hq ho).resolve_right ?_
  rintro ⟨q', b', ht, ho', hsuf⟩
  refine ht (hT q' b' ?_ ho')
  rintro rfl
  exact hq (List.suffix_nil.mp hsuf)

namespace AddressSpace

theorem compact_iff_tidy (hi : Intact S m) (hs : s ∈ S) :
    s.Compact m ↔ Tidy s m fun _ => True := by
  constructor
  · intro h q b hq ho _ hvac
    obtain ⟨y, ⟨-, hv⟩, hsuf⟩ := h q b hq ho
    obtain ⟨l, rfl⟩ := exists_level_of_suffix hsuf
    rw [leafAt_eq_zero hi hs ho.arrayAt_eq (hvac _), A.lawful.isValid_zero] at hv
    cases hv
  · exact fun h q b hq ho => h.exists_maps hi hs (fun _ _ _ _ => trivial) hq ho

theorem Compact.exists_owns_iff (h : s.Compact m) (hq : q ≠ []) :
    (∃ b, s.Owns m q b) ↔
      ∃ y, s.Maps m y ∧ s.OwnsSlot (Level.pgd.index y) ∧ q <:+ Level.pte.path y := by
  constructor
  · rintro ⟨b, ho⟩
    obtain ⟨y, hy, hsuf⟩ := h q b hq ho
    exact ⟨y, hy, ownsSlot_of_suffix hq ho.ownsPath hsuf, hsuf⟩
  · rintro ⟨y, hy, hslot, hsuf⟩
    exact hy.exists_owns hslot hsuf

theorem Compact.untouched (h : s.Compact m) (hsame : s.Untouched m m') : s.Compact m' := by
  intro q b hq ho
  obtain ⟨y, ⟨hy, hv⟩, hsuf⟩ := h q b hq (hsame.owns_iff.mp ho)
  exact ⟨y, ⟨hy, by rwa [hsame.leafAt_eq]⟩, hsuf⟩

/-! ## The pages determine the tree -/

/-- A compact space that maps the same pages as before owns the same arrays, if those that it
had are still where they were. -/
theorem Compact.owns_iff (h : s.Compact m) (h' : s.Compact m')
    (hmaps : ∀ y, s.Maps m' y ↔ s.Maps m y)
    (hplace : ∀ q b b', s.Owns m q b → s.Owns m' q b' → b' = b) :
    s.Owns m' q b ↔ s.Owns m q b := by
  by_cases hq : q = []
  · subst hq
    constructor
    · rintro ⟨-, -, harr⟩
      exact Option.some.inj harr ▸ Intact.root_owns s m
    · rintro ⟨-, -, harr⟩
      exact Option.some.inj harr ▸ Intact.root_owns s m'
  · have hiff : (∃ b, s.Owns m' q b) ↔ ∃ b, s.Owns m q b := by
      rw [h.exists_owns_iff hq, h'.exists_owns_iff hq]
      simp only [hmaps]
    constructor
    · intro ho
      obtain ⟨b', ho'⟩ := hiff.mp ⟨b, ho⟩
      rwa [hplace q b' b ho' ho]
    · intro ho
      obtain ⟨b', ho'⟩ := hiff.mpr ⟨b, ho⟩
      rwa [← hplace q b b' ho ho']

theorem entry_eq_of_arrayAt {i : Fin 512} (ha : s.arrayAt m p = some a)
    (ha' : s.arrayAt m' p = some a)
    (hw : m.entry a i = 0 ∨ ∃ b, A.codec.IsPointer (m.entry a i) b)
    (hw' : m'.entry a i = 0 ∨ ∃ b, A.codec.IsPointer (m'.entry a i) b)
    (h : s.arrayAt m' (i :: p) = s.arrayAt m (i :: p)) : m'.entry a i = m.entry a i := by
  rw [arrayAt_cons, arrayAt_cons, ha, ha', Option.bind_some, Option.bind_some] at h
  rcases hw with h0 | ⟨b, hb⟩ <;> rcases hw' with h0' | ⟨b', hb'⟩
  · rw [h0, h0']
  · rw [h0, hb'.child?_eq A.lawful, A.lawful.child?_zero] at h
    cases h
  · rw [h0', hb.child?_eq A.lawful, A.lawful.child?_zero] at h
    cases h
  · rw [hb.child?_eq A.lawful, hb'.child?_eq A.lawful] at h
    obtain rfl := Option.some.inj h
    exact Except.ok.inj (hb'.2.symm.trans hb.2)

/-- A space that owns the same arrays and shows the same leaves as before shows every word as
before, as long as no other space is touched. -/
theorem untouched_of_leaves (hi : Intact S m) (hi' : Intact S m') (hs : s ∈ S)
    (hothers : ∀ t ∈ S, t ≠ s → t.Untouched m m')
    (howns : ∀ q b, s.Owns m' q b ↔ s.Owns m q b)
    (hleaf : ∀ y, IsPage y → s.leafAt m' y = s.leafAt m y) : s.Untouched m m' := by
  intro p a hp ha i
  obtain ⟨t, ht, ho, -⟩ := hi.owns_of_arrayAt hs hp ha
  by_cases hts : t = s
  swap
  · exact hothers t ht hts p a hp ho.arrayAt_eq i
  subst hts
  have ho' := (howns p a).mpr ho
  rcases Nat.lt_or_eq_of_le hp with hlt | hlen
  · by_cases hown : t.OwnsPath (i :: p)
    · apply entry_eq_of_arrayAt ha ho'.arrayAt_eq (hi.pointers t hs p a ho hlt i)
        (hi'.pointers t hs p a ho' hlt i)
      apply Option.ext
      intro b
      exact ⟨fun hb => ((howns _ b).mp ⟨hown, hlt, hb⟩).arrayAt_eq,
        fun hb => ((howns _ b).mpr ⟨hown, hlt, hb⟩).arrayAt_eq⟩
    · -- A slot that is not the space's own is a copy of one of its base.
      obtain rfl : p = [] := by
        by_contra hne
        exact hown ((ownsPath_cons hne).mpr ho.ownsPath)
      obtain rfl := Option.some.inj ha
      rw [ownsPath_singleton] at hown
      obtain ⟨u, hu⟩ := exists_upper hown
      obtain ⟨d, hd, hdu, hold, hcopy⟩ := hi.base t hs u hu
      obtain ⟨d', hd', hdu', -, hcopy'⟩ := hi'.base t hs u hu
      obtain rfl := hi.owner_inj d hd d' hd' (hdu.trans hdu'.symm)
      have hne : d ≠ t := by
        rintro rfl
        exact Nat.lt_irrefl _ hold
      rw [hcopy i hown, hcopy' i hown, hothers d hd hne [] d.root (by simp) rfl]
  · obtain ⟨y, hy, hpath, hindex⟩ := exists_page_at hlen i
    have hsame := hleaf y hy
    rwa [leafAt, leafAt, hpath, ha, ho'.arrayAt_eq, hindex] at hsame

/-! ## Changes of a compact space -/

section Changes

variable {start stop distance : Word} {o : MapOptions} {m₀ : Memory}

theorem MappedUpTo.maps_iff (h : MappedUpTo A.codec o distance start (s.leafAt m₀) (pageEnd stop)
    (s.leafAt m)) : s.Maps m y ↔ IsPage y ∧ Covers start stop y ∨ s.Maps m₀ y := by
  constructor
  · rintro ⟨hy, hv⟩
    by_cases hc : start.toNat ≤ y.toNat ∧ y.toNat < pageEnd stop
    · exact Or.inl ⟨hy, hc⟩
    · have hpage := h y hy
      rw [if_neg hc] at hpage
      exact Or.inr ⟨hy, hpage ▸ hv⟩
  · intro hor
    have hy : IsPage y := hor.elim And.left And.left
    have hpage := h y hy
    by_cases hc : start.toNat ≤ y.toNat ∧ y.toNat < pageEnd stop
    · rw [if_pos hc] at hpage
      exact ⟨hy, hpage.isValid A.lawful⟩
    · rw [if_neg hc] at hpage
      exact ⟨hy, hpage ▸ (hor.resolve_left fun hin => hc hin.2).2⟩

theorem ClearedUpTo.maps_iff (h : ClearedUpTo start (s.leafAt m₀) (pageEnd stop) (s.leafAt m)) :
    s.Maps m y ↔ s.Maps m₀ y ∧ ¬ Covers start stop y := by
  constructor
  · rintro ⟨hy, hv⟩
    rw [h y hy] at hv
    split at hv
    · rw [A.lawful.isValid_zero] at hv
      cases hv
    · next hn => exact ⟨⟨hy, hv⟩, hn⟩
  · rintro ⟨⟨hy, hv⟩, (hn : ¬ (start.toNat ≤ y.toNat ∧ y.toNat < pageEnd stop))⟩
    refine ⟨hy, ?_⟩
    rwa [h y hy, if_neg hn]

theorem Pruned.compact (h : Pruned S s start stop m₀ m) (hi : Intact S m₀) (hs : s ∈ S)
    (hc : s.Compact m₀) : s.Compact m :=
  (compact_iff_tidy h.intact hs).mpr (h.tidy ((compact_iff_tidy hi hs).mp hc))

end Changes

end AddressSpace

namespace Walk

variable {start stop distance : Word} {o : MapOptions} {m₀ : Memory}
  {new : List (List (Fin 512))} {freed : List PhysicalAddress}

theorem passed_iff (ha : Accepted start stop) :
    Passed start stop q ↔ ∃ y, Inside start stop y ∧ q <:+ Level.pte.path y := by
  constructor
  · intro h
    obtain ⟨l, y, hy, rfl⟩ := h.exists_inside ha
    exact ⟨y, hy, l.path_suffix_pte y⟩
  · rintro ⟨y, hy, hsuf⟩
    obtain ⟨l, rfl⟩ := exists_level_of_suffix hsuf
    exact ⟨l, y, hy.le, hy.lt, rfl⟩

theorem Gained.mem_iff_passed (h : Gained s start stop m₀ m new) (ha : Accepted start stop)
    (he : Editable S s start stop) (hmap : MappedUpTo A.codec o distance start (s.leafAt m₀)
      (pageEnd stop) (s.leafAt m)) (q : List (Fin 512)) :
    q ∈ new ↔ Passed start stop q ∧ ¬ ∃ b, s.Owns m₀ q b := by
  constructor
  · exact fun hq => ⟨h.passed q hq, ((h.mem_iff q).mp hq).2⟩
  · rintro ⟨hpass, hmissing⟩
    obtain ⟨y, hy, hsuf⟩ := (passed_iff ha).mp hpass
    have hmapped : s.Maps m y := hmap.maps_iff.mpr (Or.inl ⟨ha.isPage hy, hy.le, hy.lt_pageEnd⟩)
    exact (h.mem_iff q).mpr ⟨hmapped.exists_owns (he.ownsSlot y hy) hsuf, hmissing⟩

theorem Gained.compact (h : Gained s start stop m₀ m new) (ha : Accepted start stop)
    (hmap : MappedUpTo A.codec o distance start (s.leafAt m₀) (pageEnd stop) (s.leafAt m))
    (hc : s.Compact m₀) : s.Compact m := by
  intro q b hq ho
  by_cases hold : ∃ b, s.Owns m₀ q b
  · obtain ⟨b', ho'⟩ := hold
    obtain ⟨y, hy, hsuf⟩ := hc q b' hq ho'
    exact ⟨y, hmap.maps_iff.mpr (Or.inr hy), hsuf⟩
  · obtain ⟨y, hy, hsuf⟩ := (passed_iff ha).mp (h.passed q ((h.mem_iff q).mpr ⟨⟨b, ho⟩, hold⟩))
    exact ⟨y, hmap.maps_iff.mpr (Or.inl ⟨ha.isPage hy, hy.le, hy.lt_pageEnd⟩), hsuf⟩

/-- What is given back of a compact space is what leads to cleared pages only. -/
theorem Released.mem_iff_covers (h : Released s m₀ m freed) (hi : Intact S m₀) (hs : s ∈ S)
    (hc : s.Compact m)
    (hclear : ClearedUpTo start (s.leafAt m₀) (pageEnd stop) (s.leafAt m))
    (b : PhysicalAddress) : b ∈ freed ↔ ∃ q, q ≠ [] ∧ s.Owns m₀ q b ∧
      ∀ y, s.Maps m₀ y → q <:+ Level.pte.path y → Covers start stop y := by
  rw [h.mem_iff]
  constructor
  · rintro ⟨⟨q, ho⟩, hgone⟩
    have hq : q ≠ [] := by
      rintro rfl
      obtain rfl := Option.some.inj ho.arrayAt_eq
      exact hgone ⟨[], Intact.root_owns s m⟩
    refine ⟨q, hq, ho, fun y hy hsuf => ?_⟩
    by_contra hn
    obtain ⟨b', ho'⟩ := (hclear.maps_iff.mpr ⟨hy, hn⟩).exists_owns
      (ownsSlot_of_suffix hq ho.ownsPath hsuf) hsuf
    obtain rfl := Option.some.inj ((h.owns q b' ho').arrayAt_eq.symm.trans ho.arrayAt_eq)
    exact hgone ⟨q, ho'⟩
  · rintro ⟨q, hq, ho, hall⟩
    refine ⟨⟨q, ho⟩, ?_⟩
    rintro ⟨q', ho'⟩
    obtain ⟨-, rfl⟩ := hi.unique s hs s hs q q' b ho (h.owns q' b ho')
    obtain ⟨y, hy, hsuf⟩ := hc q b hq ho'
    obtain ⟨hy, hn⟩ := hclear.maps_iff.mp hy
    exact hn (hall y hy hsuf)

end Walk

end Sandbox
