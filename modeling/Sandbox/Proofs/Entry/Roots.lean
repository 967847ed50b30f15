import Sandbox.Proofs.Entry.Words

/-! # What root words hold

The word that selects a tree packs the address of the root array and a tag. No two fields of the
word overlap and every field is as wide as its value may be, so the word reads back as what it
was made of. Roots are the addresses that the entries of the architecture can point at.
-/

namespace Sandbox

namespace BitField

variable {f : BitField}

theorem store_bind_eq_ok_iff {α : Type} {v w : Word} {k : Word → Except Abort α} {x : α} :
    (f.store v w >>= k) = .ok x ↔ v.toNat < 2 ^ f.width ∧ k (f.set (v.setWidth _) w) = .ok x := by
  by_cases h : f.Fits v
  · simp [store_of_fits h, h, ← fits_iff, bind, Except.bind]
  · simp [store_of_not_fits h, h, ← fits_iff, bind, Except.bind]

def Within (fs : List BitField) (w : Word) : Prop :=
  ∀ i, w.getLsbD i = true → ∃ f ∈ fs, f.offset ≤ i ∧ i < f.offset + f.width

theorem within_zero (fs : List BitField) : Within fs 0 := by
  simp [Within]

theorem Within.set {fs : List BitField} {w : Word} (h : Within fs w) (hf : f ∈ fs)
    (v : BitVec f.width) : Within fs (f.set v w) := by
  intro i hi
  rw [getLsbD_set _ _ _ _ (BitVec.lt_of_getLsbD hi)] at hi
  split at hi
  next hin => exact ⟨f, hf, hin⟩
  next => exact h i hi

end BitField

theorem Word.shiftLeft_setWidth_ushiftRight {a : Word} {s n : Nat} (ha : a.toNat % 2 ^ s = 0)
    (h : a.toNat / 2 ^ s < 2 ^ n) : ((a >>> s).setWidth n).setWidth 64 <<< s = a := by
  have hlt := a.isLt
  have hdiv := Nat.div_le_self a.toNat (2 ^ s)
  apply BitVec.eq_of_toNat_eq
  simp only [BitVec.toNat_shiftLeft, BitVec.toNat_setWidth, BitVec.toNat_ushiftRight,
    Nat.shiftRight_eq_div_pow, Nat.shiftLeft_eq]
  rw [Nat.mod_eq_of_lt h, Nat.mod_eq_of_lt (show a.toNat / 2 ^ s < 2 ^ 64 by omega),
    Nat.div_mul_cancel (Nat.dvd_of_mod_eq_zero ha), Nat.mod_eq_of_lt hlt]

namespace Architecture

def tagBits : Architecture → Nat
  | .riscv64 => 16
  | .x86_64 => 12
  | .arm64 => 16

def rootFields : Architecture → List BitField
  | .riscv64 => [Satp.ppn, Satp.asid, Satp.mode]
  | .x86_64 => [Cr3.pcid, Cr3.base, Cr3.noFlush]
  | .arm64 => [Ttbr0.baddr, Ttbr0.asid]

def rootOf : Architecture → Word → PhysicalAddress
  | .riscv64 => Satp.root
  | .x86_64 => Cr3.root
  | .arm64 => Ttbr0.root

def tagOf : Architecture → Word → Asid
  | .riscv64, w => Satp.asid.get w
  | .x86_64, w => (Cr3.pcid.get w).setWidth 16
  | .arm64, w => Ttbr0.asid.get w

/-- What a root word needs of the address and of the tag. -/
def TakesRoot (A : Architecture) (root : PhysicalAddress) (tag : Asid) : Prop :=
  A.TakesTable root ∧ tag.toNat < 2 ^ A.tagBits

/-- The word reads back as the root and the tag, and nothing else is in it. -/
structure ReadsRoot (A : Architecture) (w : Word) (root : PhysicalAddress) (tag : Asid)
    (keep : Bool) : Prop where
  root : A.rootOf w = root
  tag : A.tagOf w = tag
  mode : A = .riscv64 → Satp.pagingMode w = .sv48
  keep : A = .x86_64 → Cr3.noFlush.flag w = keep
  within : BitField.Within A.rootFields w

end Architecture

/-! ## What the registers are given -/

section

variable {root : PhysicalAddress} {tag : Asid} {keep : Bool} {w : Word}

theorem Satp.ofRoot_eq_ok_iff {m : Mode} : ofRoot root tag m = .ok w ↔
    root.isPageAligned = true ∧ root.word.toNat < 2 ^ 56 ∧
      mode.set (m.code.setWidth 4) (asid.set tag (ppn.set ((root.word >>> 12).setWidth _) 0)) =
        w := by
  have hfits : root.word.toNat >>> 12 < 2 ^ ppn.width ↔ root.word.toNat < 2 ^ 56 := by
    simp only [Nat.shiftRight_eq_div_pow, ppn]
    omega
  simp [ofRoot, require_bind_eq_ok_iff, BitField.store_bind_eq_ok_iff, hfits, pure, Except.pure]

theorem Cr3.ofRoot_eq_ok_iff : ofRoot root tag keep = .ok w ↔
    root.isPageAligned = true ∧ tag.toNat < 2 ^ 12 ∧ root.word.toNat < 2 ^ 52 ∧
      noFlush.setFlag keep (base.set ((root.word >>> 12).setWidth _)
        (pcid.set ((tag.setWidth 64).setWidth _) 0)) = w := by
  have hfits : root.word.toNat >>> 12 < 2 ^ base.width ↔ root.word.toNat < 2 ^ 52 := by
    simp only [Nat.shiftRight_eq_div_pow, base]
    omega
  have htag : tag < 4096 ↔ tag.toNat < 2 ^ 12 := BitVec.lt_def
  have hpcid : tag.toNat % 2 ^ 64 < 2 ^ pcid.width ↔ tag.toNat < 2 ^ 12 := by
    have := tag.isLt
    simp only [pcid]
    omega
  simp only [ofRoot, require_bind_eq_ok_iff, BitField.store_bind_eq_ok_iff, htag, hpcid, hfits,
    BitVec.toNat_setWidth, BitVec.toNat_ushiftRight, pure, Except.pure, Except.ok.injEq,
    and_self_left]

theorem Ttbr0.ofRoot_eq_ok_iff : ofRoot root tag = .ok w ↔
    root.isPageAligned = true ∧ root.word.toNat < 2 ^ 48 ∧
      asid.set tag (baddr.set ((root.word >>> 1).setWidth _) 0) = w := by
  have hfits : root.word.toNat >>> 1 < 2 ^ baddr.width ↔ root.word.toNat < 2 ^ 48 := by
    simp only [Nat.shiftRight_eq_div_pow, baddr]
    omega
  simp [ofRoot, require_bind_eq_ok_iff, BitField.store_bind_eq_ok_iff, hfits, pure, Except.pure]

namespace Architecture

variable {A : Architecture}

/-- A root word is made exactly of the roots and tags that its register has room for. -/
theorem rootWord_eq_ok_iff : (∃ w, A.rootWord root tag keep = .ok w) ↔ A.TakesRoot root tag := by
  have htag := tag.isLt
  cases A with
  | riscv64 =>
    simp [rootWord, Satp.ofRoot_eq_ok_iff, TakesRoot, TakesTable, physicalBits, tagBits, htag]
  | x86_64 =>
    simp [rootWord, Cr3.ofRoot_eq_ok_iff, TakesRoot, TakesTable, physicalBits, tagBits, and_assoc,
      and_comm (a := tag.toNat < _)]
  | arm64 =>
    simp [rootWord, Ttbr0.ofRoot_eq_ok_iff, TakesRoot, TakesTable, physicalBits, tagBits, htag]

theorem readsRoot_riscv64 (h : rootWord .riscv64 root tag keep = .ok w) :
    ReadsRoot .riscv64 w root tag keep := by
  obtain ⟨ha, hlt, hw⟩ := Satp.ofRoot_eq_ok_iff.mp h
  rw [PhysicalAddress.isPageAligned_iff] at ha
  have hback := Word.shiftLeft_setWidth_ushiftRight (s := 12) (n := Satp.ppn.width) ha
    (by simp only [Satp.ppn]; omega)
  have hppn : Satp.ppn.get w = (root.word >>> 12).setWidth _ := by
    subst hw
    exact (BitField.Apart.get_set (by decide) _ _).trans
      ((BitField.Apart.get_set (by decide) _ _).trans (BitField.get_set _ _ _))
  have hasid : Satp.asid.get w = tag := by
    subst hw
    exact (BitField.Apart.get_set (by decide) _ _).trans (BitField.get_set _ _ _)
  have hmode : Satp.mode.get w = Satp.Mode.sv48.code.setWidth 4 := by
    subst hw
    exact BitField.get_set _ _ _
  constructor
  case root => simp [rootOf, Satp.root, BitField.word, hppn, hback]
  case tag => exact hasid
  case mode => simp [Satp.pagingMode, hmode]
  case keep => exact fun hA => by cases hA
  case within =>
    subst hw
    exact (((BitField.within_zero _).set (by decide) _).set (by decide) _).set (by decide) _

theorem readsRoot_x86_64 (h : rootWord .x86_64 root tag keep = .ok w) :
    ReadsRoot .x86_64 w root tag keep := by
  obtain ⟨ha, htag, hlt, hw⟩ := Cr3.ofRoot_eq_ok_iff.mp h
  rw [PhysicalAddress.isPageAligned_iff] at ha
  have hback := Word.shiftLeft_setWidth_ushiftRight (s := 12) (n := Cr3.base.width) ha
    (by simp only [Cr3.base]; omega)
  have hbase : Cr3.base.get w = (root.word >>> 12).setWidth _ := by
    subst hw
    exact (BitField.Apart.get_set (by decide) _ _).trans (BitField.get_set _ _ _)
  have hpcid : Cr3.pcid.get w = (tag.setWidth 64).setWidth _ := by
    subst hw
    exact (BitField.Apart.get_set (by decide) _ _).trans
      ((BitField.Apart.get_set (by decide) _ _).trans (BitField.get_set _ _ _))
  constructor
  case root => simp [rootOf, Cr3.root, BitField.word, hbase, hback]
  case tag =>
    have hwidth : 2 ^ Cr3.pcid.width = 4096 := rfl
    apply BitVec.eq_of_toNat_eq
    simp only [tagOf, hpcid, BitVec.toNat_setWidth, hwidth]
    omega
  case mode => exact fun hA => by cases hA
  case keep =>
    intro _
    subst hw
    exact (BitField.getLsbD_setFlag rfl _ _ (by decide)).trans (if_pos rfl)
  case within =>
    subst hw
    exact (((BitField.within_zero _).set (by decide) _).set (by decide) _).set (by decide) _

theorem readsRoot_arm64 (h : rootWord .arm64 root tag keep = .ok w) :
    ReadsRoot .arm64 w root tag keep := by
  obtain ⟨ha, hlt, hw⟩ := Ttbr0.ofRoot_eq_ok_iff.mp h
  rw [PhysicalAddress.isPageAligned_iff] at ha
  have hback := Word.shiftLeft_setWidth_ushiftRight (a := root.word) (s := 1)
    (n := Ttbr0.baddr.width) (by omega) (by simp only [Ttbr0.baddr]; omega)
  have hbaddr : Ttbr0.baddr.get w = (root.word >>> 1).setWidth _ := by
    subst hw
    exact (BitField.Apart.get_set (by decide) _ _).trans (BitField.get_set _ _ _)
  have hasid : Ttbr0.asid.get w = tag := by
    subst hw
    exact BitField.get_set _ _ _
  constructor
  case root => simp [rootOf, Ttbr0.root, BitField.word, hbaddr, hback]
  case tag => exact hasid
  case mode | keep => exact fun hA => by cases hA
  case within =>
    subst hw
    exact ((BitField.within_zero _).set (by decide) _).set (by decide) _

theorem readsRoot (h : A.rootWord root tag keep = .ok w) : A.ReadsRoot w root tag keep := by
  cases A with
  | riscv64 => exact readsRoot_riscv64 h
  | x86_64 => exact readsRoot_x86_64 h
  | arm64 => exact readsRoot_arm64 h

theorem table_eq_ok_iff {old : Word} (hold : A.codec.isValid old = false) :
    (∃ w, A.codec.table old root = .ok w) ↔ A.TakesTable root := by
  by_cases h : A.TakesTable root
  · obtain ⟨w, -, hw⟩ := table_eq_ok h
    simp [h, hw old hold]
  · obtain ⟨e, he⟩ : ∃ e, A.codec.table old root = .error e := table_eq_error (.inr h)
    simp [h, he]

/-- Root words hold what they were given. A root or a tag that the register has no room for is
rejected, and any other comes back from the word, where no other bit is set. So trees with
different roots or tags never load the same word. With a tag that has room, the roots are the
addresses that an invalid entry can be made to point at. -/
structure LoadsFaithfully (A : Architecture) : Prop where
  rejected {root : PhysicalAddress} {tag : Asid} (h : ¬ A.TakesRoot root tag) (keep : Bool) :
    ∃ e, A.rootWord root tag keep = .error e
  loaded {root : PhysicalAddress} {tag : Asid} (h : A.TakesRoot root tag) (keep : Bool) :
    ∃ w, A.rootWord root tag keep = .ok w ∧ A.ReadsRoot w root tag keep
  injective {root root' : PhysicalAddress} {tag tag' : Asid} {keep keep' : Bool} {w : Word}
    (h : A.rootWord root tag keep = .ok w) (h' : A.rootWord root' tag' keep' = .ok w) :
    root = root' ∧ tag = tag'
  accepts_iff {root : PhysicalAddress} {tag : Asid} {old : Word}
    (htag : tag.toNat < 2 ^ A.tagBits) (hold : A.codec.isValid old = false) (keep : Bool) :
    (∃ w, A.rootWord root tag keep = .ok w) ↔ ∃ w, A.codec.table old root = .ok w

/-- Every architecture loads roots and tags faithfully. -/
theorem loadsFaithfully (A : Architecture) : A.LoadsFaithfully := by
  constructor
  case rejected =>
    intro root tag h keep
    cases hw : A.rootWord root tag keep with
    | ok w => exact absurd (rootWord_eq_ok_iff.mp ⟨w, hw⟩) h
    | error e => exact ⟨e, rfl⟩
  case loaded =>
    intro root tag h keep
    obtain ⟨w, hw⟩ := rootWord_eq_ok_iff.mpr h
    exact ⟨w, hw, readsRoot hw⟩
  case injective =>
    intro root root' tag tag' keep keep' w h h'
    have hread := readsRoot h
    have hread' := readsRoot h'
    exact ⟨hread.root.symm.trans hread'.root, hread.tag.symm.trans hread'.tag⟩
  case accepts_iff =>
    intro root tag old htag hold keep
    simp [rootWord_eq_ok_iff, table_eq_ok_iff hold, TakesRoot, htag]

example : rootWord .x86_64 ⟨0x12345000⟩ 0x2a true = .ok 0x800000001234502a := by rfl

end Architecture

end

end Sandbox
