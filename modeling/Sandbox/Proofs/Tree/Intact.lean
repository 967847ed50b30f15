import Sandbox.AddressSpace
import Sandbox.Proofs.Memory.Edit
import Sandbox.Proofs.Tree.Path

/-! # Intact memory

The spaces of one memory own disjoint trees of arrays, and together they own all live
arrays. What a space shares is seen through copied root slots and owned by another
space, from which it can be reached along the same path.
-/

namespace Sandbox

def Memory.arrayAt (c : EntryCodec) (m : Memory) (root : PhysicalAddress) :
    List (Fin 512) → Option PhysicalAddress
  | [] => some root
  | i :: p => (m.arrayAt c root p).bind fun a => c.child? (m.entry a i)

namespace AddressSpace

variable {A : Architecture}

/-- Root slots below the shared part are the space's own. -/
def OwnsSlot (s : AddressSpace A) (i : Fin 512) : Prop :=
  ∀ u, s.upper = some u → i < Level.pgd.index u.start

def OwnsPath (s : AddressSpace A) (p : List (Fin 512)) : Prop :=
  ∀ i, p.getLast? = some i → s.OwnsSlot i

def arrayAt (s : AddressSpace A) (m : Memory) (p : List (Fin 512)) : Option PhysicalAddress :=
  m.arrayAt A.codec s.root p

/-- The leaf of the page that holds an address, or 0 if its array is missing. -/
def leafAt (s : AddressSpace A) (m : Memory) (x : Word) : Word :=
  match s.arrayAt m (Level.pte.path x) with
  | some a => m.entry a (Level.pte.index x)
  | none => 0

structure Owns (s : AddressSpace A) (m : Memory) (p : List (Fin 512)) (a : PhysicalAddress) :
    Prop where
  ownsPath : s.OwnsPath p
  length_le : p.length ≤ 3
  arrayAt_eq : s.arrayAt m p = some a

/-- A space shares what lies above a canonical root slot boundary. -/
def WellSplit (s : AddressSpace A) : Prop :=
  ∀ u, s.upper = some u → u.start.toNat % 2 ^ 39 = 0 ∧ Canonical.isCanonical u.start = true

def Unshared (S : List (AddressSpace A)) (s : AddressSpace A) : Prop :=
  ∀ t ∈ S, ∀ u, t.upper = some u → u.owner ≠ s.owner

theorem owns_frozen_iff {s : AddressSpace A} {m : Memory} {p : List (Fin 512)}
    {a : PhysicalAddress} (f : Bool) :
    ({ s with frozen := f } : AddressSpace A).Owns m p a ↔ s.Owns m p a :=
  ⟨fun h => ⟨h.ownsPath, h.length_le, h.arrayAt_eq⟩,
    fun h => ⟨h.ownsPath, h.length_le, h.arrayAt_eq⟩⟩

theorem exists_upper {s : AddressSpace A} {i : Fin 512} (h : ¬ s.OwnsSlot i) :
    ∃ u, s.upper = some u := by
  by_contra hnone
  exact h fun u hu => absurd ⟨u, hu⟩ hnone

theorem ownsPath_nil (s : AddressSpace A) : s.OwnsPath [] := by
  intro i h
  cases h

theorem ownsPath_of_suffix {s : AddressSpace A} {p q : List (Fin 512)} (h : s.OwnsPath p)
    (hq : q <:+ p) : s.OwnsPath q := by
  intro i hi
  obtain ⟨r, rfl⟩ := hq
  apply h i
  rw [List.getLast?_append, hi]
  rfl

@[simp] theorem arrayAt_nil (s : AddressSpace A) (m : Memory) : s.arrayAt m [] = some s.root := rfl

theorem arrayAt_cons (s : AddressSpace A) (m : Memory) (i : Fin 512) (p : List (Fin 512)) :
    s.arrayAt m (i :: p) = (s.arrayAt m p).bind fun a => A.codec.child? (m.entry a i) := rfl

theorem arrayAt_cons_eq_some {s : AddressSpace A} {m : Memory} {i : Fin 512}
    {p : List (Fin 512)} {b : PhysicalAddress} :
    s.arrayAt m (i :: p) = some b ↔
      ∃ a, s.arrayAt m p = some a ∧ A.codec.child? (m.entry a i) = some b := by
  rw [arrayAt_cons, Option.bind_eq_some_iff]

theorem arrayAt_cons_of_none {s : AddressSpace A} {m : Memory} {i : Fin 512}
    {p : List (Fin 512)} (h : s.arrayAt m p = none) : s.arrayAt m (i :: p) = none := by
  rw [arrayAt_cons, h]; rfl

theorem arrayAt_none_of_suffix {s : AddressSpace A} {m : Memory} {p q : List (Fin 512)}
    (h : s.arrayAt m q = none) (hs : q <:+ p) : s.arrayAt m p = none := by
  obtain ⟨r, rfl⟩ := hs
  induction r with
  | nil => exact h
  | cons i r ih => exact arrayAt_cons_of_none ih

/-- A path leads where it led if the entries on the way are what they were. -/
theorem arrayAt_eq_of_same {s : AddressSpace A} {m m' : Memory} {p : List (Fin 512)}
    (h : ∀ j q b, j :: q <:+ p → s.arrayAt m q = some b → m'.entry b j = m.entry b j) :
    s.arrayAt m' p = s.arrayAt m p := by
  induction p with
  | nil => rfl
  | cons j q ih =>
    have hq : s.arrayAt m' q = s.arrayAt m q :=
      ih fun k r b hr hb => h k r b (hr.trans (List.suffix_cons j q)) hb
    rw [arrayAt_cons, arrayAt_cons, hq]
    cases hb : s.arrayAt m q with
    | none => rfl
    | some b => rw [Option.bind_some, Option.bind_some, h j q b List.suffix_rfl hb]

theorem leafAt_eq_of_same {s : AddressSpace A} {m m' : Memory} {y : Word}
    (hp : s.arrayAt m' (Level.pte.path y) = s.arrayAt m (Level.pte.path y))
    (h : ∀ b, s.arrayAt m (Level.pte.path y) = some b →
      m'.entry b (Level.pte.index y) = m.entry b (Level.pte.index y)) :
    s.leafAt m' y = s.leafAt m y := by
  unfold leafAt
  rw [hp]
  cases hb : s.arrayAt m (Level.pte.path y) with
  | none => rfl
  | some b => exact h b hb

theorem arrayAt_congr_root {s t : AddressSpace A} {m : Memory} {i : Fin 512}
    (h : m.entry s.root i = m.entry t.root i) :
    ∀ {p : List (Fin 512)}, p.getLast? = some i → s.arrayAt m p = t.arrayAt m p
  | [], hp => by cases hp
  | [j], hp => by
    obtain rfl : j = i := Option.some.inj hp
    rw [arrayAt_cons, arrayAt_cons, arrayAt_nil, arrayAt_nil, Option.bind_some, Option.bind_some, h]
  | j :: k :: p, hp => by
    rw [arrayAt_cons s m j, arrayAt_cons t m j,
      arrayAt_congr_root h (by rwa [List.getLast?_cons_cons] at hp)]

theorem leafAt_congr_root {s t : AddressSpace A} {m : Memory} {y : Word}
    (h : m.entry s.root (Level.pgd.index y) = m.entry t.root (Level.pgd.index y)) :
    s.leafAt m y = t.leafAt m y := by
  unfold leafAt
  rw [arrayAt_congr_root h rfl]

end AddressSpace

open AddressSpace

/-- What holds between one memory and the spaces that live in it. -/
structure Intact {A : Architecture} (S : List (AddressSpace A)) (m : Memory) : Prop where
  /-- Spaces are known by their owners. -/
  owner_inj : ∀ s ∈ S, ∀ t ∈ S, s.owner = t.owner → s = t
  split : ∀ s ∈ S, s.WellSplit
  /-- Shared root slots are copies of those of an older space. -/
  base : ∀ s ∈ S, ∀ u, s.upper = some u → ∃ b ∈ S, b.owner = u.owner ∧
    b.owner.number < s.owner.number ∧ ∀ i, ¬ s.OwnsSlot i → m.entry s.root i = m.entry b.root i
  live_iff : ∀ a, a ∈ m.live ↔ ∃ s ∈ S, ∃ p, s.Owns m p a
  unique : ∀ s ∈ S, ∀ t ∈ S, ∀ p q a, s.Owns m p a → t.Owns m q a → s = t ∧ p = q
  /-- Entries above the leaves are 0 or pointers. -/
  pointers : ∀ s ∈ S, ∀ p a, s.Owns m p a → p.length < 3 → ∀ i,
    m.entry a i = 0 ∨ ∃ b, A.codec.IsPointer (m.entry a i) b
  /-- Entries of the lowest arrays are 0 or leaves. -/
  leaves : ∀ s ∈ S, ∀ p a, s.Owns m p a → p.length = 3 → ∀ i,
    m.entry a i = 0 ∨ A.codec.IsLeaf (m.entry a i)
  books : m.Books

namespace Intact

variable {A : Architecture} {S : List (AddressSpace A)} {m : Memory} {s t : AddressSpace A}
  {p q : List (Fin 512)} {a b : PhysicalAddress} {i : Fin 512}

/-- Every path of a space is owned by a space that is reached along base spaces. -/
theorem exists_owner (h : Intact S m) (hs : s ∈ S) (p : List (Fin 512)) :
    ∃ t ∈ S, t.OwnsPath p ∧ t.arrayAt m p = s.arrayAt m p ∧ (t = s ∨ ¬ Unshared S t) := by
  -- Bases are older, so the search ends.
  induction hn : s.owner.number using Nat.strongRecOn generalizing s with
  | _ n ih =>
    subst hn
    by_cases hp : s.OwnsPath p
    · exact ⟨s, hs, hp, rfl, Or.inl rfl⟩
    · simp only [OwnsPath, not_forall] at hp
      obtain ⟨i, hi, hslot⟩ := hp
      obtain ⟨u, hu, -⟩ : ∃ u, s.upper = some u ∧ ¬ i < Level.pgd.index u.start := by
        simpa only [OwnsSlot, not_forall, exists_prop] using hslot
      obtain ⟨b, hb, hbu, hlt, hcopy⟩ := h.base s hs u hu
      have hshared : ¬ Unshared S b := fun hf => hf s hs u hu hbu.symm
      obtain ⟨t, ht, hown, harr, hor⟩ := ih _ hlt hb rfl
      refine ⟨t, ht, hown, harr.trans (arrayAt_congr_root (hcopy i hslot) hi).symm, Or.inr ?_⟩
      rcases hor with rfl | hn
      · exact hshared
      · exact hn

theorem owns_of_arrayAt (h : Intact S m) (hs : s ∈ S) (hp : p.length ≤ 3)
    (ha : s.arrayAt m p = some a) :
    ∃ t ∈ S, t.Owns m p a ∧ (t = s ∨ ¬ Unshared S t) := by
  obtain ⟨t, ht, hown, harr, hor⟩ := h.exists_owner hs p
  exact ⟨t, ht, ⟨hown, hp, harr.trans ha⟩, hor⟩

theorem mem_live (h : Intact S m) (hs : s ∈ S) (ha : s.Owns m p a) : a ∈ m.live :=
  (h.live_iff a).mpr ⟨s, hs, p, ha⟩

theorem mem_live_of_arrayAt (h : Intact S m) (hs : s ∈ S) (hp : p.length ≤ 3)
    (ha : s.arrayAt m p = some a) : a ∈ m.live := by
  obtain ⟨t, ht, hown, -⟩ := h.owns_of_arrayAt hs hp ha
  exact h.mem_live ht hown

theorem contains_live (h : Intact S m) (hs : s ∈ S) (hp : p.length ≤ 3)
    (ha : s.arrayAt m p = some a) : m.live.contains a = true :=
  Std.ExtTreeSet.mem_iff_contains.mp (h.mem_live_of_arrayAt hs hp ha)

theorem pointers_of_arrayAt (h : Intact S m) (hs : s ∈ S) (hp : p.length < 3)
    (ha : s.arrayAt m p = some a) (i : Fin 512) :
    m.entry a i = 0 ∨ ∃ b, A.codec.IsPointer (m.entry a i) b := by
  obtain ⟨t, ht, hown, -⟩ := h.owns_of_arrayAt hs hp.le ha
  exact h.pointers t ht p a hown hp i

theorem leaves_of_arrayAt (h : Intact S m) (hs : s ∈ S) (hp : p.length = 3)
    (ha : s.arrayAt m p = some a) (i : Fin 512) :
    m.entry a i = 0 ∨ A.codec.IsLeaf (m.entry a i) := by
  obtain ⟨t, ht, hown, -⟩ := h.owns_of_arrayAt hs hp.le ha
  exact h.leaves t ht p a hown hp i

/-- An array owned by an unshared space is seen by no other space and at no other path. -/
theorem eq_of_arrayAt (h : Intact S m) (hs : s ∈ S) (hfree : Unshared S s) (ha : s.Owns m p a)
    (ht : t ∈ S) (hq : q.length ≤ 3) (hb : t.arrayAt m q = some a) : t = s ∧ q = p := by
  obtain ⟨r, hr, hown, hor⟩ := h.owns_of_arrayAt ht hq hb
  obtain ⟨rfl, rfl⟩ := h.unique r hr s hs q p a hown ha
  rcases hor with rfl | hn
  · exact ⟨rfl, rfl⟩
  · exact absurd hfree hn

theorem eq_nil_of_root (h : Intact S m) (hs : s ∈ S) (ht : t ∈ S) (ha : s.Owns m p t.root) :
    s = t ∧ p = [] :=
  h.unique s hs t ht p [] t.root ha ⟨t.ownsPath_nil, by simp, rfl⟩

theorem root_owns (s : AddressSpace A) (m : Memory) : s.Owns m [] s.root :=
  ⟨s.ownsPath_nil, by simp, rfl⟩

theorem leafAt_zero_or_leaf (h : Intact S m) (hs : s ∈ S) (x : Word) :
    s.leafAt m x = 0 ∨ A.codec.IsLeaf (s.leafAt m x) := by
  unfold leafAt
  split
  · exact h.leaves_of_arrayAt hs (Level.length_path .pte x) ‹_› _
  · exact Or.inl rfl

end Intact

end Sandbox
