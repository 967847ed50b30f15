import Sandbox.Proofs.Tree.View

/-! # Edits of a tree

Each of the three edits changes one place of one tree: a leaf, or one array with nothing
below it. The memory stays intact, no other space sees a difference, and only a written
leaf changes what a page maps to.
-/

namespace Sandbox

open AddressSpace

variable {A : Architecture} {S : List (AddressSpace A)} {m m' : Memory} {s t : AddressSpace A}
  {p q : List (Fin 512)} {a b : PhysicalAddress} {i j : Fin 512} {w : Word}

namespace AddressSpace

theorem ownsPath_cons (hp : p ≠ []) : s.OwnsPath (i :: p) ↔ s.OwnsPath p := by
  obtain ⟨j, r, rfl⟩ := List.exists_cons_of_ne_nil hp
  unfold OwnsPath
  rw [List.getLast?_cons_cons]

theorem not_cons_suffix (i : Fin 512) (p : List (Fin 512)) : ¬ i :: p <:+ p := by
  intro h
  have := h.length_le
  rw [List.length_cons] at this
  omega

theorem ownsPath_singleton : s.OwnsPath [i] ↔ s.OwnsSlot i :=
  ⟨fun h => h i rfl, fun h _ hj => Option.some.inj hj ▸ h⟩

end AddressSpace

/-- The slot at which a tree is edited, in an array of an unshared space. -/
structure Site (S : List (AddressSpace A)) (m : Memory) (s : AddressSpace A)
    (p : List (Fin 512)) (a : PhysicalAddress) (i : Fin 512) : Prop where
  intact : Intact S m
  mem : s ∈ S
  unshared : Unshared S s
  owns : s.Owns m p a
  slot : s.OwnsPath (i :: p)

namespace Site

theorem mem_live (h : Site S m s p a i) : a ∈ m.live :=
  h.intact.mem_live h.mem h.owns

theorem mem_arrays (h : Site S m s p a i) : a ∈ m.arrays :=
  h.intact.books.present a h.mem_live

/-- Paths that do not pass the site lead where they led. -/
theorem arrayAt_eq (h : Site S m s p a i)
    (hsame : ∀ b ∈ m.live, ∀ j, ¬ (b = a ∧ j = i) → m'.entry b j = m.entry b j) (ht : t ∈ S)
    (hq : q.length ≤ 3) (hn : ¬ (t = s ∧ i :: p <:+ q)) : t.arrayAt m' q = t.arrayAt m q := by
  apply arrayAt_eq_of_same
  intro j r b hr hb
  have hlen : r.length ≤ 3 := Nat.le_of_succ_le (hr.length_le.trans hq)
  apply hsame b (h.intact.mem_live_of_arrayAt ht hlen hb)
  rintro ⟨rfl, rfl⟩
  obtain ⟨rfl, rfl⟩ := h.intact.eq_of_arrayAt h.mem h.unshared h.owns ht hlen hb
  exact hn ⟨rfl, hr⟩

theorem untouched (h : Site S m s p a i)
    (hsame : ∀ b ∈ m.live, ∀ j, ¬ (b = a ∧ j = i) → m'.entry b j = m.entry b j) (ht : t ∈ S)
    (hne : t ≠ s) : t.Untouched m m' := by
  intro q b hq hb j
  apply hsame b (h.intact.mem_live_of_arrayAt ht hq hb)
  rintro ⟨rfl, -⟩
  exact hne (h.intact.eq_of_arrayAt h.mem h.unshared h.owns ht hq hb).1

theorem base_eq (h : Site S m s p a i)
    (hsame : ∀ b ∈ m.live, ∀ j, ¬ (b = a ∧ j = i) → m'.entry b j = m.entry b j) (ht : t ∈ S)
    {u : SharedUpper} (hu : t.upper = some u) : ∃ b ∈ S, b.owner = u.owner ∧
      b.owner.number < t.owner.number ∧
      ∀ j, ¬ t.OwnsSlot j → m'.entry t.root j = m'.entry b.root j := by
  obtain ⟨b, hb, hbu, hlt, hcopy⟩ := h.intact.base t ht u hu
  refine ⟨b, hb, hbu, hlt, fun j hj => ?_⟩
  rw [hsame t.root (h.intact.mem_live ht (Intact.root_owns t m)) j,
    hsame b.root (h.intact.mem_live hb (Intact.root_owns b m)) j, hcopy j hj]
  · rintro ⟨rfl, -⟩
    obtain ⟨rfl, -⟩ := h.intact.eq_nil_of_root h.mem hb h.owns
    exact h.unshared t ht u hu hbu.symm
  · rintro ⟨rfl, rfl⟩
    obtain ⟨rfl, rfl⟩ := h.intact.eq_nil_of_root h.mem ht h.owns
    exact hj (ownsPath_singleton.mp h.slot)

section Leaf

/-! ## Writing a leaf -/

theorem entry_setEntry (h : Site S m s p a i) :
    (m.setEntry a i w).entry b j = if b = a ∧ j = i then w else m.entry b j :=
  Memory.entry_setEntry h.mem_arrays

theorem same_setEntry (h : Site S m s p a i) :
    ∀ b ∈ m.live, ∀ j, ¬ (b = a ∧ j = i) → (m.setEntry a i w).entry b j = m.entry b j := by
  intro b _ j hn
  rw [h.entry_setEntry, if_neg hn]

theorem arrayAt_setEntry (h : Site S m s p a i) (hp : p.length = 3) (ht : t ∈ S)
    (hq : q.length ≤ 3) : t.arrayAt (m.setEntry a i w) q = t.arrayAt m q := by
  apply h.arrayAt_eq h.same_setEntry ht hq
  rintro ⟨-, hsuf⟩
  have := hsuf.length_le
  simp at this
  omega

theorem owns_setEntry (h : Site S m s p a i) (hp : p.length = 3) (ht : t ∈ S) :
    t.Owns (m.setEntry a i w) q b ↔ t.Owns m q b :=
  ⟨fun ho => (owns_congr (h.arrayAt_setEntry hp ht ho.length_le)).mp ho,
    fun ho => (owns_congr (h.arrayAt_setEntry hp ht ho.length_le)).mpr ho⟩

theorem intact_setEntry (h : Site S m s p a i) (hp : p.length = 3)
    (hw : w = 0 ∨ A.codec.IsLeaf w) : Intact S (m.setEntry a i w) where
  owner_inj := h.intact.owner_inj
  split := h.intact.split
  base _ ht _ hu := h.base_eq h.same_setEntry ht hu
  live_iff b := by
    rw [Memory.live_setEntry, h.intact.live_iff]
    constructor
    · rintro ⟨t, ht, q, ho⟩; exact ⟨t, ht, q, (h.owns_setEntry hp ht).mpr ho⟩
    · rintro ⟨t, ht, q, ho⟩; exact ⟨t, ht, q, (h.owns_setEntry hp ht).mp ho⟩
  unique t ht r hr q q' b ho ho' :=
    h.intact.unique t ht r hr q q' b ((h.owns_setEntry hp ht).mp ho)
      ((h.owns_setEntry hp hr).mp ho')
  pointers t ht q b ho hq j := by
    rw [h.owns_setEntry hp ht] at ho
    rw [h.entry_setEntry, if_neg]
    · exact h.intact.pointers t ht q b ho hq j
    · rintro ⟨rfl, -⟩
      obtain ⟨-, rfl⟩ := h.intact.unique t ht s h.mem q p b ho h.owns
      omega
  leaves t ht q b ho hq j := by
    rw [h.owns_setEntry hp ht] at ho
    rw [h.entry_setEntry]
    split
    · exact hw
    · exact h.intact.leaves t ht q b ho hq j
  books := h.intact.books.congr (m.sameBooks_setEntry a i w)

theorem leafAt_setEntry (h : Site S m s p a i) (hp : p.length = 3) (ht : t ∈ S) (y : Word) :
    t.leafAt (m.setEntry a i w) y = if t = s ∧ pagePath y = i :: p then w else t.leafAt m y := by
  unfold leafAt
  have hlen := Level.length_path .pte y
  rw [h.arrayAt_setEntry hp ht hlen.le]
  by_cases hy : t = s ∧ pagePath y = i :: p
  · obtain ⟨rfl, hy⟩ := hy
    obtain ⟨hi, hpath⟩ := List.cons.inj hy
    rw [if_pos ⟨rfl, hy⟩, hpath, h.owns.arrayAt_eq]
    change (m.setEntry a i w).entry a _ = w
    rw [h.entry_setEntry, if_pos ⟨rfl, hi⟩]
  · rw [if_neg hy]
    cases hb : t.arrayAt m (Level.pte.path y) with
    | none => rfl
    | some b =>
      change (m.setEntry a i w).entry b _ = m.entry b _
      rw [h.entry_setEntry, if_neg]
      rintro ⟨rfl, hi⟩
      obtain ⟨rfl, hpath⟩ := h.intact.eq_of_arrayAt h.mem h.unshared h.owns ht hlen.le hb
      exact hy ⟨rfl, by rw [pagePath, hi, hpath]⟩

end Leaf

section Attach

/-! ## Attaching an array -/

variable (hnew : m.nextArray ∉ m.live)

include hnew

theorem ne_nextArray (h : Site S m s p a i) : a ≠ m.nextArray :=
  fun he => hnew (he ▸ h.mem_live)

theorem same_attach (h : Site S m s p a i) :
    ∀ b ∈ m.live, ∀ j, ¬ (b = a ∧ j = i) → (m.attach a i w).entry b j = m.entry b j := by
  intro b hb j hn
  rw [Memory.entry_attach h.mem_arrays, if_neg hn,
    if_neg (show b ≠ m.nextArray from fun he => hnew (he ▸ hb))]

/-- The new array lies at the end of the path through the site, and nothing lies below it. -/
theorem arrayAt_attach (h : Site S m s p a i) (hp : p.length < 3)
    (hold : A.codec.isValid (m.entry a i) = false) (hw : A.codec.child? w = some m.nextArray)
    (ht : t ∈ S) (hq : q.length ≤ 3) : t.arrayAt (m.attach a i w) q =
      if t = s ∧ q = i :: p then some m.nextArray else t.arrayAt m q := by
  have hkeep : ∀ {q}, q.length ≤ 3 → ¬ (t = s ∧ i :: p <:+ q) →
      t.arrayAt (m.attach a i w) q = t.arrayAt m q :=
    fun hq => h.arrayAt_eq (h.same_attach hnew) ht hq
  by_cases hpass : t = s ∧ i :: p <:+ q
  · obtain ⟨rfl, hsuf⟩ := hpass
    have hend : t.arrayAt (m.attach a i w) (i :: p) = some m.nextArray := by
      rw [arrayAt_cons, hkeep hp.le, h.owns.arrayAt_eq, Option.bind_some,
        Memory.entry_attach h.mem_arrays, if_pos ⟨rfl, rfl⟩, hw]
      exact fun hc => not_cons_suffix i p hc.2
    by_cases hqe : q = i :: p
    · rw [if_pos ⟨rfl, hqe⟩, hqe, hend]
    · have hnone : t.arrayAt m (i :: p) = none := by
        rw [arrayAt_cons, h.owns.arrayAt_eq, Option.bind_some, EntryCodec.child?_eq_none hold]
      rw [if_neg fun hc => hqe hc.2, arrayAt_none_of_suffix hnone hsuf]
      obtain ⟨r, rfl⟩ := hsuf
      obtain ⟨r, j, rfl⟩ := (List.eq_nil_or_concat r).resolve_left (by rintro rfl; exact hqe rfl)
      apply arrayAt_none_of_suffix (q := j :: i :: p) _ ⟨r, by simp⟩
      rw [arrayAt_cons, hend, Option.bind_some, Memory.entry_attach h.mem_arrays,
        if_neg fun hc => h.ne_nextArray hnew hc.1.symm, if_pos rfl,
        A.lawful.child?_zero]
  · rw [hkeep hq hpass, if_neg]
    rintro ⟨rfl, rfl⟩
    exact hpass ⟨rfl, List.suffix_rfl⟩

theorem owns_attach (h : Site S m s p a i) (hp : p.length < 3)
    (hold : A.codec.isValid (m.entry a i) = false) (hw : A.codec.child? w = some m.nextArray)
    (ht : t ∈ S) : t.Owns (m.attach a i w) q b ↔
      t.Owns m q b ∨ (t = s ∧ q = i :: p ∧ b = m.nextArray) := by
  have hnone : s.arrayAt m (i :: p) = none := by
    rw [arrayAt_cons, h.owns.arrayAt_eq, Option.bind_some, EntryCodec.child?_eq_none hold]
  constructor
  · rintro ⟨h₁, h₂, h₃⟩
    rw [h.arrayAt_attach hnew hp hold hw ht h₂] at h₃
    split at h₃
    · next hc => exact Or.inr ⟨hc.1, hc.2, (Option.some.inj h₃).symm⟩
    · exact Or.inl ⟨h₁, h₂, h₃⟩
  · rintro (⟨h₁, h₂, h₃⟩ | ⟨rfl, rfl, rfl⟩)
    · refine ⟨h₁, h₂, ?_⟩
      rw [h.arrayAt_attach hnew hp hold hw ht h₂, if_neg, h₃]
      rintro ⟨rfl, rfl⟩
      rw [hnone] at h₃
      cases h₃
    · refine ⟨h.slot, by simp; omega, ?_⟩
      rw [h.arrayAt_attach hnew hp hold hw ht (by simp; omega), if_pos ⟨rfl, rfl⟩]

theorem intact_attach (h : Site S m s p a i) (hp : p.length < 3)
    (hold : A.codec.isValid (m.entry a i) = false) (hw : A.codec.IsPointer w m.nextArray) :
    Intact S (m.attach a i w) := by
  have hchild := hw.child?_eq A.lawful
  have howns {t : AddressSpace A} (ht : t ∈ S) {q b} :=
    h.owns_attach (q := q) (b := b) hnew hp hold hchild ht
  have hentry (b : PhysicalAddress) (j : Fin 512) : (m.attach a i w).entry b j =
      if b = a ∧ j = i then w else if b = m.nextArray then 0 else m.entry b j :=
    Memory.entry_attach h.mem_arrays
  constructor
  case owner_inj => exact h.intact.owner_inj
  case split => exact h.intact.split
  case base => exact fun _ ht _ hu => h.base_eq (h.same_attach hnew) ht hu
  case books => exact h.intact.books.handOut.congr (m.handOut.sameBooks_setEntry a i w)
  case live_iff =>
    intro b
    rw [Memory.mem_live_attach, h.intact.live_iff]
    constructor
    · rintro (rfl | ⟨t, ht, q, ho⟩)
      · exact ⟨s, h.mem, i :: p, (howns h.mem).mpr (Or.inr ⟨rfl, rfl, rfl⟩)⟩
      · exact ⟨t, ht, q, (howns ht).mpr (Or.inl ho)⟩
    · rintro ⟨t, ht, q, ho⟩
      rcases (howns ht).mp ho with ho | ⟨-, -, rfl⟩
      · exact Or.inr ⟨t, ht, q, ho⟩
      · exact Or.inl rfl
  case unique =>
    intro t ht r hr q q' b ho ho'
    rcases (howns ht).mp ho with ho | ⟨rfl, rfl, rfl⟩ <;>
      rcases (howns hr).mp ho' with ho' | ⟨rfl, rfl, hb⟩
    · exact h.intact.unique t ht r hr q q' b ho ho'
    · exact absurd (h.intact.mem_live ht ho) (hb ▸ hnew)
    · exact absurd (h.intact.mem_live hr ho') hnew
    · exact ⟨rfl, rfl⟩
  case pointers =>
    intro t ht q b ho hq j
    rw [hentry]
    split
    · exact Or.inr ⟨_, hw⟩
    · split
      · exact Or.inl rfl
      · rcases (howns ht).mp ho with ho | ⟨-, -, rfl⟩
        · exact h.intact.pointers t ht q b ho hq j
        · contradiction
  case leaves =>
    intro t ht q b ho hq j
    rw [hentry]
    rcases (howns ht).mp ho with hm | ⟨rfl, rfl, rfl⟩
    · rw [if_neg, if_neg]
      · exact h.intact.leaves t ht q b hm hq j
      · exact fun he => hnew (he ▸ h.intact.mem_live ht hm)
      · rintro ⟨rfl, -⟩
        obtain ⟨-, rfl⟩ := h.intact.unique t ht s h.mem q p b hm h.owns
        omega
    · rw [if_neg fun hc => h.ne_nextArray hnew hc.1.symm, if_pos rfl]
      exact Or.inl rfl

theorem leafAt_attach (h : Site S m s p a i) (hp : p.length < 3)
    (hold : A.codec.isValid (m.entry a i) = false) (hw : A.codec.child? w = some m.nextArray)
    (ht : t ∈ S) (y : Word) : t.leafAt (m.attach a i w) y = t.leafAt m y := by
  have hlen := Level.length_path .pte y
  unfold leafAt
  rw [h.arrayAt_attach hnew hp hold hw ht hlen.le]
  by_cases hc : t = s ∧ Level.pte.path y = i :: p
  · rw [if_pos hc]
    obtain ⟨rfl, hc⟩ := hc
    rw [hc, arrayAt_cons, h.owns.arrayAt_eq, Option.bind_some, EntryCodec.child?_eq_none hold]
    change (m.attach a i w).entry m.nextArray _ = 0
    rw [Memory.entry_attach h.mem_arrays, if_neg fun hc => h.ne_nextArray hnew hc.1.symm,
      if_pos rfl]
  · rw [if_neg hc]
    cases hb : t.arrayAt m (Level.pte.path y) with
    | none => rfl
    | some b =>
      apply h.same_attach hnew b (h.intact.mem_live_of_arrayAt ht hlen.le hb)
      rintro ⟨rfl, -⟩
      obtain ⟨-, hpath⟩ := h.intact.eq_of_arrayAt h.mem h.unshared h.owns ht hlen.le hb
      rw [hpath] at hlen
      simp only [Level.depth] at hlen
      omega

end Attach

section Detach

/-! ## Detaching an array -/

def Vacant (m : Memory) (c : EntryCodec) (b : PhysicalAddress) : Prop :=
  ∀ j, c.isValid (m.entry b j) = false

theorem entry_detach (h : Site S m s p a i) {d : PhysicalAddress} :
    (m.detach a i b).entry d j = if d = a ∧ j = i then 0 else m.entry d j :=
  Memory.entry_detach h.mem_arrays

theorem same_detach (h : Site S m s p a i) :
    ∀ d ∈ m.live, ∀ j, ¬ (d = a ∧ j = i) → (m.detach a i b).entry d j = m.entry d j := by
  intro d _ j hn
  rw [h.entry_detach, if_neg hn]

variable (hb : s.arrayAt m (i :: p) = some b) (hvac : Vacant m A.codec b)

include hb hvac

theorem arrayAt_detach (h : Site S m s p a i) (ht : t ∈ S) (hq : q.length ≤ 3) :
    t.arrayAt (m.detach a i b) q = if t = s ∧ q = i :: p then none else t.arrayAt m q := by
  have hkeep : ∀ {q}, q.length ≤ 3 → ¬ (t = s ∧ i :: p <:+ q) →
      t.arrayAt (m.detach a i b) q = t.arrayAt m q :=
    fun hq => h.arrayAt_eq h.same_detach ht hq
  by_cases hpass : t = s ∧ i :: p <:+ q
  · obtain ⟨rfl, hsuf⟩ := hpass
    have hend : t.arrayAt (m.detach a i b) (i :: p) = none := by
      rw [arrayAt_cons, hkeep h.owns.length_le, h.owns.arrayAt_eq, Option.bind_some,
        h.entry_detach, if_pos ⟨rfl, rfl⟩, A.lawful.child?_zero]
      exact fun hc => not_cons_suffix i p hc.2
    rw [arrayAt_none_of_suffix hend hsuf]
    split
    · rfl
    · next hne =>
      obtain ⟨r, rfl⟩ := hsuf
      obtain ⟨r, j, rfl⟩ := (List.eq_nil_or_concat r).resolve_left
        (by rintro rfl; exact hne ⟨rfl, rfl⟩)
      symm
      apply arrayAt_none_of_suffix (q := j :: i :: p) _ ⟨r, by simp⟩
      rw [arrayAt_cons, hb, Option.bind_some, EntryCodec.child?_eq_none (hvac j)]
  · rw [hkeep hq hpass, if_neg]
    rintro ⟨rfl, rfl⟩
    exact hpass ⟨rfl, List.suffix_rfl⟩

theorem owns_detach (h : Site S m s p a i) {d : PhysicalAddress} (ht : t ∈ S) :
    t.Owns (m.detach a i b) q d ↔ t.Owns m q d ∧ ¬ (t = s ∧ q = i :: p) := by
  constructor
  · rintro ⟨h₁, h₂, h₃⟩
    rw [h.arrayAt_detach hb hvac ht h₂] at h₃
    split at h₃
    · cases h₃
    · exact ⟨⟨h₁, h₂, h₃⟩, ‹_›⟩
  · rintro ⟨⟨h₁, h₂, h₃⟩, hn⟩
    refine ⟨h₁, h₂, ?_⟩
    rw [h.arrayAt_detach hb hvac ht h₂, if_neg hn, h₃]

omit hvac in
theorem owns_child (h : Site S m s p a i) (hp : p.length < 3) : s.Owns m (i :: p) b :=
  ⟨h.slot, by simp; omega, hb⟩

theorem intact_detach (h : Site S m s p a i) (hp : p.length < 3) :
    Intact S (m.detach a i b) := by
  have hchild := h.owns_child hb hp
  have howns {t : AddressSpace A} (ht : t ∈ S) {q d} :=
    h.owns_detach (q := q) (d := d) hb hvac ht
  have hlive := h.intact.mem_live h.mem hchild
  constructor
  case owner_inj => exact h.intact.owner_inj
  case split => exact h.intact.split
  case base => exact fun _ ht _ hu => h.base_eq h.same_detach ht hu
  case books => exact (h.intact.books.congr (m.sameBooks_setEntry a i 0)).giveBack hlive
  case live_iff =>
    intro d
    rw [Memory.mem_live_detach, h.intact.live_iff]
    constructor
    · rintro ⟨hne, t, ht, q, ho⟩
      refine ⟨t, ht, q, (howns ht).mpr ⟨ho, ?_⟩⟩
      rintro ⟨rfl, rfl⟩
      exact hne (Option.some.inj (ho.arrayAt_eq.symm.trans hb))
    · rintro ⟨t, ht, q, ho⟩
      obtain ⟨hm, hn⟩ := (howns ht).mp ho
      refine ⟨?_, t, ht, q, hm⟩
      rintro rfl
      exact hn (h.intact.unique t ht s h.mem q _ d hm hchild)
  case unique =>
    intro t ht r hr q q' d ho ho'
    exact h.intact.unique t ht r hr q q' d ((howns ht).mp ho).1 ((howns hr).mp ho').1
  case pointers =>
    intro t ht q d ho hq j
    rw [h.entry_detach]
    split
    · exact Or.inl rfl
    · exact h.intact.pointers t ht q d ((howns ht).mp ho).1 hq j
  case leaves =>
    intro t ht q d ho hq j
    rw [h.entry_detach]
    split
    · exact Or.inl rfl
    · exact h.intact.leaves t ht q d ((howns ht).mp ho).1 hq j

theorem leafAt_detach (h : Site S m s p a i) (hp : p.length < 3) (ht : t ∈ S) (y : Word) :
    t.leafAt (m.detach a i b) y = t.leafAt m y := by
  have hlen := Level.length_path .pte y
  unfold leafAt
  rw [h.arrayAt_detach hb hvac ht hlen.le]
  by_cases hc : t = s ∧ Level.pte.path y = i :: p
  · rw [if_pos hc]
    obtain ⟨rfl, hc⟩ := hc
    rw [hc, hb]
    symm
    have hpl : (i :: p).length = 3 := by rw [← hc]; exact hlen
    rcases h.intact.leaves_of_arrayAt h.mem hpl hb (Level.pte.index y) with hz | ⟨f, o, hl⟩
    · exact hz
    · have := hl.isValid A.lawful
      rw [hvac] at this
      cases this
  · rw [if_neg hc]
    cases hd : t.arrayAt m (Level.pte.path y) with
    | none => rfl
    | some d =>
      apply h.same_detach d (h.intact.mem_live_of_arrayAt ht hlen.le hd)
      rintro ⟨rfl, -⟩
      obtain ⟨-, hpath⟩ := h.intact.eq_of_arrayAt h.mem h.unshared h.owns ht hlen.le hd
      rw [hpath] at hlen
      simp only [Level.depth] at hlen
      omega

end Detach

end Site

end Sandbox
