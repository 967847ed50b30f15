import Mathlib.Data.FinEnum
import Mathlib.Data.Set.Card
import Sandbox.Proofs.Space.Compact

/-! # Number of arrays

Besides its root, a compact space owns one array for each block of addresses that holds one of
its mapped pages, at each of the three levels below the root. On canonical addresses the path
to an array determines the block that it covers.
-/

namespace Sandbox

open AddressSpace Walk

variable {A : Architecture} {S : List (AddressSpace A)} {s : AddressSpace A} {m : Memory}
  {l : Level} {x y : Word}

namespace Level

/-- The path to the array that covers a block. -/
def blockPath (l : Level) (n : Nat) : List (Fin 512) :=
  l.path (BitVec.ofNat 64 (n * 2 ^ (l.shift + 9)))

theorem blockPath_div (l : Level) (y : Word) :
    l.blockPath (y.toNat / 2 ^ (l.shift + 9)) = l.path y := by
  have hle := Nat.div_mul_le_self y.toNat (2 ^ (l.shift + 9))
  have hlt := y.isLt
  apply path_congr
  rw [BitVec.toNat_ofNat, Nat.mod_eq_of_lt (by omega), Nat.mul_div_cancel _ (Nat.two_pow_pos _)]

end Level

namespace AddressSpace

def ownPages (s : AddressSpace A) (m : Memory) : Set Word :=
  {y | s.Maps m y ∧ s.OwnsSlot (Level.pgd.index y)}

def ownBlocks (s : AddressSpace A) (m : Memory) (k : Nat) : Set Nat :=
  (fun y : Word => y.toNat / 2 ^ k) '' s.ownPages m

def ownPaths (s : AddressSpace A) (m : Memory) : Set (List (Fin 512)) :=
  {q | ∃ b, s.Owns m q b}

def ownArrays (s : AddressSpace A) (m : Memory) : Set PhysicalAddress :=
  {b | ∃ q, s.Owns m q b}

theorem card_path_image (hl : l ≠ .pgd) (s : AddressSpace A) (m : Memory) :
    (l.path '' s.ownPages m).ncard = (s.ownBlocks m (l.shift + 9)).ncard := by
  have himage : l.path '' s.ownPages m = l.blockPath '' s.ownBlocks m (l.shift + 9) := by
    rw [ownBlocks, Set.image_image]
    simp only [Level.blockPath_div]
  rw [himage, Set.InjOn.ncard_image]
  rintro _ ⟨x, hx, rfl⟩ _ ⟨y, hy, rfl⟩ h
  rw [Level.blockPath_div, Level.blockPath_div] at h
  exact Level.path_inj hl hx.1.1.canonical hy.1.1.canonical h

theorem Compact.ownPaths_eq (h : s.Compact m) : s.ownPaths m =
    {[]} ∪ (Level.pud.path '' s.ownPages m ∪
      (Level.pmd.path '' s.ownPages m ∪ Level.pte.path '' s.ownPages m)) := by
  have howned {l : Level} {y : Word} (hy : y ∈ s.ownPages m) : ∃ b, s.Owns m (l.path y) b :=
    hy.1.exists_owns hy.2 (l.path_suffix_pte y)
  ext q
  constructor
  · rintro ⟨b, ho⟩
    by_cases hq : q = []
    · exact Or.inl hq
    · obtain ⟨y, hy, hslot, hsuf⟩ := (h.exists_owns_iff hq).mp ⟨b, ho⟩
      obtain ⟨l, rfl⟩ := exists_level_of_suffix hsuf
      right
      cases l with
      | pgd => exact absurd rfl hq
      | pud => exact Or.inl ⟨y, ⟨hy, hslot⟩, rfl⟩
      | pmd => exact Or.inr (Or.inl ⟨y, ⟨hy, hslot⟩, rfl⟩)
      | pte => exact Or.inr (Or.inr ⟨y, ⟨hy, hslot⟩, rfl⟩)
  · rintro (rfl | ⟨y, hy, rfl⟩ | ⟨y, hy, rfl⟩ | ⟨y, hy, rfl⟩)
    · exact ⟨s.root, Intact.root_owns s m⟩
    · exact howned hy
    · exact howned hy
    · exact howned hy

theorem path_images_apart {l l' : Level} (hl : l.depth ≠ l'.depth) (P : Set Word) :
    ∀ q ∈ l.path '' P, q ∉ l'.path '' P := by
  rintro _ ⟨y, -, rfl⟩ ⟨z, -, hz⟩
  apply hl
  rw [← Level.length_path l y, ← hz, Level.length_path]

theorem card_ownArrays (hi : Intact S m) (hs : s ∈ S) :
    (s.ownArrays m).ncard = (s.ownPaths m).ncard := by
  have himage : s.ownArrays m = (fun q => (s.arrayAt m q).getD s.root) '' s.ownPaths m := by
    ext b
    constructor
    · rintro ⟨q, ho⟩
      refine ⟨q, ⟨b, ho⟩, ?_⟩
      dsimp only
      rw [ho.arrayAt_eq]
      rfl
    · rintro ⟨q, ⟨b', ho⟩, rfl⟩
      refine ⟨q, ?_⟩
      dsimp only
      rwa [ho.arrayAt_eq]
  rw [himage, Set.InjOn.ncard_image]
  rintro q ⟨b, ho⟩ q' ⟨b', ho'⟩ h
  dsimp only at h
  rw [ho.arrayAt_eq, ho'.arrayAt_eq] at h
  obtain rfl : b = b' := h
  exact (hi.unique s hs s hs q q' b ho ho').2

/-- A compact space owns its root, and one array for each block with a page of its own. -/
theorem Compact.card_arrays (h : s.Compact m) (hi : Intact S m) (hs : s ∈ S) :
    (s.ownArrays m).ncard = 1 + (s.ownBlocks m 39).ncard + (s.ownBlocks m 30).ncard +
      (s.ownBlocks m 21).ncard := by
  have hfinite (l : Level) : (l.path '' s.ownPages m).Finite := (Set.toFinite _).image _
  have hlow : Disjoint (Level.pmd.path '' s.ownPages m) (Level.pte.path '' s.ownPages m) :=
    Set.disjoint_left.mpr (path_images_apart (by decide) _)
  have hhigh : Disjoint (Level.pud.path '' s.ownPages m)
      (Level.pmd.path '' s.ownPages m ∪ Level.pte.path '' s.ownPages m) :=
    Set.disjoint_union_right.mpr
      ⟨Set.disjoint_left.mpr (path_images_apart (by decide) _),
        Set.disjoint_left.mpr (path_images_apart (by decide) _)⟩
  have hroot : Disjoint {[]} (Level.pud.path '' s.ownPages m ∪
      (Level.pmd.path '' s.ownPages m ∪ Level.pte.path '' s.ownPages m)) := by
    rw [Set.disjoint_singleton_left]
    rintro (⟨y, -, h0⟩ | ⟨y, -, h0⟩ | ⟨y, -, h0⟩) <;> cases h0
  rw [card_ownArrays hi hs, h.ownPaths_eq,
    Set.ncard_union_eq hroot (Set.finite_singleton _)
      ((hfinite .pud).union ((hfinite .pmd).union (hfinite .pte))),
    Set.ncard_union_eq hhigh (hfinite .pud) ((hfinite .pmd).union (hfinite .pte)),
    Set.ncard_union_eq hlow (hfinite .pmd) (hfinite .pte), Set.ncard_singleton,
    card_path_image (by decide), card_path_image (by decide), card_path_image (by decide),
    Nat.add_assoc, Nat.add_assoc]
  rfl

end AddressSpace

end Sandbox
