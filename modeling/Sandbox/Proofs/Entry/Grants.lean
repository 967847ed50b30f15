import Sandbox.Proofs.Entry.Laws

/-! # What the words of a path grant

On the way to a page hardware reads four words, and what it grants there is put together from
all of them. Here it is said bit by bit for each architecture, without any codec. Where three
pointers lead to a leaf, they grant what the leaf was composed of and nothing else.
-/

namespace Sandbox

/-- The words on the way to a page, from the root of a tree to the leaf. -/
structure PathWords where
  top : Word
  upper : Word
  middle : Word
  leaf : Word
  deriving DecidableEq

namespace PathWords

def tables (p : PathWords) : List Word :=
  [p.top, p.upper, p.middle]

def all (p : PathWords) : List Word :=
  p.tables ++ [p.leaf]

variable {p : PathWords} {w : Word} {P : Word → Prop}

theorem mem_tables : w ∈ p.tables ↔ w = p.top ∨ w = p.upper ∨ w = p.middle := by
  simp [tables]

theorem mem_all : w ∈ p.all ↔ w ∈ p.tables ∨ w = p.leaf := by
  simp [all]

theorem forall_mem_tables : (∀ w ∈ p.tables, P w) ↔ P p.top ∧ P p.upper ∧ P p.middle := by
  simp [tables]

theorem forall_mem_all : (∀ w ∈ p.all, P w) ↔ (∀ w ∈ p.tables, P w) ∧ P p.leaf := by
  simp only [all, List.forall_mem_append, List.forall_mem_singleton]

end PathWords

def Architecture.target (A : Architecture) (w : Word) : PhysicalAddress :=
  match A with
  | .riscv64 => ⟨(w.extractLsb' 10 44).setWidth 64 <<< 12⟩
  | .x86_64 => ⟨(w.extractLsb' 12 40).setWidth 64 <<< 12⟩
  | .arm64 => ⟨(w.extractLsb' 12 36).setWidth 64 <<< 12⟩

theorem Architecture.target_eq (A : Architecture) (w : Word) : A.target w = A.codec.address w := by
  cases A <;> rfl

/-- A pointer has V and nothing else apart from its PPN. A leaf has V, R, W, X, U, G, A and D
in its lowest bits, and again nothing else apart from its PPN. -/
structure Sv48.Grants (p : PathWords) (a : PhysicalAddress) (o : MapOptions) : Prop where
  tables : ∀ w ∈ p.tables, ∀ i < 64, ¬ (10 ≤ i ∧ i < 54) → w.getLsbD i = decide (i = 0)
  frame : Architecture.riscv64.target p.leaf = a
  valid : p.leaf.getLsbD 0 = true
  readable : p.leaf.getLsbD 1 = true ∧ o.access.read = true
  writable : p.leaf.getLsbD 2 = o.access.write
  executable : p.leaf.getLsbD 3 = o.access.execute
  user : p.leaf.getLsbD 4 = o.user
  global : p.leaf.getLsbD 5 = o.global
  accessed : p.leaf.getLsbD 6 = true
  dirty : p.leaf.getLsbD 7 = o.access.write
  clear : ∀ i < 64, 8 ≤ i → ¬ (10 ≤ i ∧ i < 54) → p.leaf.getLsbD i = false

/-- All words have P and A and lack PS. A right is granted if all words grant it by R/W and
U/S, and execution if no word forbids it by XD. What is present can be read. -/
structure X86.Grants (p : PathWords) (a : PhysicalAddress) (o : MapOptions) : Prop where
  present : ∀ w ∈ p.all, w.getLsbD 0 = true
  readable : o.access.read = true
  accessed : ∀ w ∈ p.all, w.getLsbD 5 = true
  small : ∀ w ∈ p.all, w.getLsbD 7 = false
  frame : Architecture.x86_64.target p.leaf = a
  writable : (p.all.all fun w => w.getLsbD 1) = o.access.write
  user : (p.all.all fun w => w.getLsbD 2) = o.user
  noExecute : (p.all.any fun w => w.getLsbD 63) = !o.access.execute
  global : p.leaf.getLsbD 8 = o.global

/-- All words have the type bits of tables and pages. A pointer is marked as one and restricts
nothing by its highest bits. In the leaf AP, nG, UXN and PXN say what it grants. -/
structure Arm64.Grants (p : PathWords) (a : PhysicalAddress) (o : MapOptions) : Prop where
  type : ∀ w ∈ p.all, w.getLsbD 0 = true ∧ w.getLsbD 1 = true
  readable : o.access.read = true
  tables : ∀ w ∈ p.tables, w.getLsbD 56 = true ∧ ∀ i < 64, 59 ≤ i → w.getLsbD i = false
  page : p.leaf.getLsbD 56 = false
  frame : Architecture.arm64.target p.leaf = a
  user : p.leaf.getLsbD 6 = o.user
  readOnly : p.leaf.getLsbD 7 = !o.access.write
  accessed : p.leaf.getLsbD 10 = true
  notGlobal : p.leaf.getLsbD 11 = !o.global
  privilegedExecuteNever : p.leaf.getLsbD 53 = !(o.access.execute && !o.user)
  userExecuteNever : p.leaf.getLsbD 54 = !(o.access.execute && o.user)

def Architecture.Grants : Architecture → PathWords → PhysicalAddress → MapOptions → Prop
  | .riscv64 => Sv48.Grants
  | .x86_64 => X86.Grants
  | .arm64 => Arm64.Grants

variable {A : Architecture} {p : PathWords} {a b : PhysicalAddress} {o o' : MapOptions}
  {w bits : Word} {c : EntryCodec} {i : Nat}

theorem Architecture.Grants.getLsbD_zero (h : A.Grants p a o) (hw : w ∈ p.all) :
    w.getLsbD 0 = true := by
  cases A with
  | riscv64 =>
    have hg : Sv48.Grants p a o := h
    rcases PathWords.mem_all.mp hw with hw | rfl
    · exact hg.tables w hw 0 (by decide) (by decide)
    · exact hg.valid
  | x86_64 => exact (show X86.Grants p a o from h).present w hw
  | arm64 => exact ((show Arm64.Grants p a o from h).type w hw).1

/-! ## Bits of pointers and leaves -/

theorem EntryCodec.getLsbD_of_compose (h : c.compose a bits = .ok w) (hi : i < 64)
    (hn : ¬ (c.frame.offset ≤ i ∧ i < c.frame.offset + c.frame.width)) :
    w.getLsbD i = bits.getLsbD i := by
  obtain ⟨-, rfl⟩ := compose_eq_ok_iff.mp h
  rw [BitField.getLsbD_set _ _ _ _ hi, if_neg hn]

namespace Sv48

theorem getLsbD_pointer (h : codec.IsPointer w b) (hi : i < 64) (hn : ¬ (10 ≤ i ∧ i < 54)) :
    w.getLsbD i = decide (i = 0) := by
  rw [EntryCodec.getLsbD_of_compose h.2 hi hn]
  revert i
  decide

theorem getLsbD_leafBits (o : MapOptions) : let w := codec.leafBits o
    w.getLsbD 0 = true ∧ w.getLsbD 1 = true ∧ w.getLsbD 2 = o.access.write ∧
    w.getLsbD 3 = o.access.execute ∧ w.getLsbD 4 = o.user ∧ w.getLsbD 5 = o.global ∧
    w.getLsbD 6 = true ∧ w.getLsbD 7 = o.access.write ∧
    ∀ i < 64, 8 ≤ i → w.getLsbD i = false := by
  obtain ⟨⟨r, w, x⟩, g, u⟩ := o
  revert r w x g u
  decide

theorem grants_composed (ht : ∀ w ∈ p.tables, ∃ b, codec.IsPointer w b)
    (hl : codec.IsLeafOf p.leaf b o) : Grants p b o.normalized := by
  have hbit (i : Nat) (hi : i < 64) (hn : ¬ (10 ≤ i ∧ i < 54)) :
      p.leaf.getLsbD i = (codec.leafBits o).getLsbD i :=
    EntryCodec.getLsbD_of_compose hl.2.2 hi hn
  obtain ⟨h0, h1, h2, h3, h4, h5, h6, h7, hclear⟩ := getLsbD_leafBits o
  rw [MapOptions.normalized, if_pos hl.1]
  constructor
  case tables =>
    intro w hw i hi hn
    obtain ⟨b, hb⟩ := ht w hw
    exact getLsbD_pointer hb hi hn
  case frame => exact (Architecture.target_eq .riscv64 p.leaf).trans (hl.address_eq lawful)
  case valid => exact (hbit 0 (by decide) (by decide)).trans h0
  case readable => exact ⟨(hbit 1 (by decide) (by decide)).trans h1, rfl⟩
  case writable => exact (hbit 2 (by decide) (by decide)).trans h2
  case executable => exact (hbit 3 (by decide) (by decide)).trans h3
  case user => exact (hbit 4 (by decide) (by decide)).trans h4
  case global => exact (hbit 5 (by decide) (by decide)).trans h5
  case accessed => exact (hbit 6 (by decide) (by decide)).trans h6
  case dirty => exact (hbit 7 (by decide) (by decide)).trans h7
  case clear => exact fun i hi hle hn => (hbit i hi hn).trans (hclear i hi hle)

theorem Grants.unique (h : Grants p a o) (h' : Grants p b o') : a = b ∧ o = o' := by
  obtain ⟨⟨r, w, x⟩, g, u⟩ := o
  obtain ⟨⟨r', w', x'⟩, g', u'⟩ := o'
  refine ⟨h.frame.symm.trans h'.frame, ?_⟩
  rw [MapOptions.mk.injEq, Access.mk.injEq]
  exact ⟨⟨h.readable.2.trans h'.readable.2.symm, h.writable.symm.trans h'.writable,
    h.executable.symm.trans h'.executable⟩, h.global.symm.trans h'.global,
    h.user.symm.trans h'.user⟩

end Sv48

namespace X86

theorem getLsbD_pointer (h : codec.IsPointer w b) : w.getLsbD 0 = true ∧ w.getLsbD 1 = true ∧
    w.getLsbD 2 = true ∧ w.getLsbD 5 = true ∧ w.getLsbD 7 = false ∧ w.getLsbD 63 = false := by
  have hbit (i : Nat) (hi : i < 64) (hn : ¬ (12 ≤ i ∧ i < 52)) :
      w.getLsbD i = codec.tableBits.getLsbD i := EntryCodec.getLsbD_of_compose h.2 hi hn
  rw [hbit 0 (by decide) (by decide), hbit 1 (by decide) (by decide),
    hbit 2 (by decide) (by decide), hbit 5 (by decide) (by decide),
    hbit 7 (by decide) (by decide), hbit 63 (by decide) (by decide)]
  decide

theorem getLsbD_leafBits (o : MapOptions) : let w := codec.leafBits o
    w.getLsbD 0 = true ∧ w.getLsbD 1 = o.access.write ∧ w.getLsbD 2 = o.user ∧
    w.getLsbD 5 = true ∧ w.getLsbD 7 = false ∧ w.getLsbD 8 = o.global ∧
    w.getLsbD 63 = !o.access.execute := by
  obtain ⟨⟨r, w, x⟩, g, u⟩ := o
  revert r w x g u
  decide

theorem grants_composed (ht : ∀ w ∈ p.tables, ∃ b, codec.IsPointer w b)
    (hl : codec.IsLeafOf p.leaf b o) : Grants p b o.normalized := by
  have hbit (i : Nat) (hi : i < 64) (hn : ¬ (12 ≤ i ∧ i < 52)) :
      p.leaf.getLsbD i = (codec.leafBits o).getLsbD i :=
    EntryCodec.getLsbD_of_compose hl.2.2 hi hn
  have htables : ∀ w ∈ p.tables, w.getLsbD 0 = true ∧ w.getLsbD 1 = true ∧
      w.getLsbD 2 = true ∧ w.getLsbD 5 = true ∧ w.getLsbD 7 = false ∧ w.getLsbD 63 = false := by
    intro w hw
    obtain ⟨b, hb⟩ := ht w hw
    exact getLsbD_pointer hb
  obtain ⟨h0, h1, h2, h5, h7, h8, h63⟩ := getLsbD_leafBits o
  rw [MapOptions.normalized, if_pos hl.1]
  constructor
  case present =>
    exact PathWords.forall_mem_all.mpr
      ⟨fun w hw => (htables w hw).1, (hbit 0 (by decide) (by decide)).trans h0⟩
  case readable => rfl
  case accessed =>
    exact PathWords.forall_mem_all.mpr
      ⟨fun w hw => (htables w hw).2.2.2.1, (hbit 5 (by decide) (by decide)).trans h5⟩
  case small =>
    exact PathWords.forall_mem_all.mpr
      ⟨fun w hw => (htables w hw).2.2.2.2.1, (hbit 7 (by decide) (by decide)).trans h7⟩
  case frame => exact (Architecture.target_eq .x86_64 p.leaf).trans (hl.address_eq lawful)
  case writable =>
    have h : p.tables.all (fun w => w.getLsbD 1) = true :=
      List.all_eq_true.mpr fun w hw => (htables w hw).2.1
    rw [PathWords.all, List.all_append, h, List.all_cons, List.all_nil,
      hbit 1 (by decide) (by decide), h1, Bool.true_and, Bool.and_true]
  case user =>
    have h : p.tables.all (fun w => w.getLsbD 2) = true :=
      List.all_eq_true.mpr fun w hw => (htables w hw).2.2.1
    rw [PathWords.all, List.all_append, h, List.all_cons, List.all_nil,
      hbit 2 (by decide) (by decide), h2, Bool.true_and, Bool.and_true]
  case noExecute =>
    have h : p.tables.any (fun w => w.getLsbD 63) = false :=
      List.any_eq_false.mpr fun w hw => Bool.eq_false_iff.mp (htables w hw).2.2.2.2.2
    rw [PathWords.all, List.any_append, h, List.any_cons, List.any_nil,
      hbit 63 (by decide) (by decide), h63, Bool.false_or, Bool.or_false]
  case global => exact (hbit 8 (by decide) (by decide)).trans h8

theorem Grants.unique (h : Grants p a o) (h' : Grants p b o') : a = b ∧ o = o' := by
  obtain ⟨⟨r, w, x⟩, g, u⟩ := o
  obtain ⟨⟨r', w', x'⟩, g', u'⟩ := o'
  refine ⟨h.frame.symm.trans h'.frame, ?_⟩
  rw [MapOptions.mk.injEq, Access.mk.injEq]
  exact ⟨⟨h.readable.trans h'.readable.symm, h.writable.symm.trans h'.writable,
    Bool.not_inj (h.noExecute.symm.trans h'.noExecute)⟩, h.global.symm.trans h'.global,
    h.user.symm.trans h'.user⟩

end X86

namespace Arm64

theorem getLsbD_pointer (h : codec.IsPointer w b) : w.getLsbD 0 = true ∧ w.getLsbD 1 = true ∧
    w.getLsbD 56 = true ∧ ∀ i < 64, 59 ≤ i → w.getLsbD i = false := by
  have hbit (i : Nat) (hi : i < 64) (hn : ¬ (12 ≤ i ∧ i < 48)) :
      w.getLsbD i = codec.tableBits.getLsbD i := EntryCodec.getLsbD_of_compose h.2 hi hn
  have hhigh : ∀ i < 64, 59 ≤ i → codec.tableBits.getLsbD i = false := by decide
  rw [hbit 0 (by decide) (by decide), hbit 1 (by decide) (by decide),
    hbit 56 (by decide) (by decide)]
  exact ⟨by decide, by decide, by decide,
    fun i hi hle => (hbit i hi (by omega)).trans (hhigh i hi hle)⟩

theorem getLsbD_leafBits (o : MapOptions) : let w := codec.leafBits o
    w.getLsbD 0 = true ∧ w.getLsbD 1 = true ∧ w.getLsbD 6 = o.user ∧
    w.getLsbD 7 = (!o.access.write) ∧ w.getLsbD 10 = true ∧ w.getLsbD 11 = (!o.global) ∧
    w.getLsbD 53 = (!(o.access.execute && !o.user)) ∧
    w.getLsbD 54 = (!(o.access.execute && o.user)) ∧ w.getLsbD 56 = false := by
  obtain ⟨⟨r, w, x⟩, g, u⟩ := o
  revert r w x g u
  decide

theorem grants_composed (ht : ∀ w ∈ p.tables, ∃ b, codec.IsPointer w b)
    (hl : codec.IsLeafOf p.leaf b o) : Grants p b o.normalized := by
  have hbit (i : Nat) (hi : i < 64) (hn : ¬ (12 ≤ i ∧ i < 48)) :
      p.leaf.getLsbD i = (codec.leafBits o).getLsbD i :=
    EntryCodec.getLsbD_of_compose hl.2.2 hi hn
  have htables : ∀ w ∈ p.tables, w.getLsbD 0 = true ∧ w.getLsbD 1 = true ∧
      w.getLsbD 56 = true ∧ ∀ i < 64, 59 ≤ i → w.getLsbD i = false := by
    intro w hw
    obtain ⟨b, hb⟩ := ht w hw
    exact getLsbD_pointer hb
  obtain ⟨h0, h1, h6, h7, h10, h11, h53, h54, h56⟩ := getLsbD_leafBits o
  rw [MapOptions.normalized, if_pos hl.1]
  constructor
  case type =>
    exact PathWords.forall_mem_all.mpr
      ⟨fun w hw => ⟨(htables w hw).1, (htables w hw).2.1⟩,
        (hbit 0 (by decide) (by decide)).trans h0, (hbit 1 (by decide) (by decide)).trans h1⟩
  case readable => rfl
  case tables => exact fun w hw => (htables w hw).2.2
  case page => exact (hbit 56 (by decide) (by decide)).trans h56
  case frame => exact (Architecture.target_eq .arm64 p.leaf).trans (hl.address_eq lawful)
  case user => exact (hbit 6 (by decide) (by decide)).trans h6
  case readOnly => exact (hbit 7 (by decide) (by decide)).trans h7
  case accessed => exact (hbit 10 (by decide) (by decide)).trans h10
  case notGlobal => exact (hbit 11 (by decide) (by decide)).trans h11
  case privilegedExecuteNever => exact (hbit 53 (by decide) (by decide)).trans h53
  case userExecuteNever => exact (hbit 54 (by decide) (by decide)).trans h54

theorem Grants.unique (h : Grants p a o) (h' : Grants p b o') : a = b ∧ o = o' := by
  obtain ⟨⟨r, w, x⟩, g, u⟩ := o
  obtain ⟨⟨r', w', x'⟩, g', u'⟩ := o'
  have huser : u = u' := h.user.symm.trans h'.user
  have hprivileged := h.privilegedExecuteNever.symm.trans h'.privilegedExecuteNever
  have hunprivileged := h.userExecuteNever.symm.trans h'.userExecuteNever
  have hexecute : x = x' := by
    dsimp only at hprivileged hunprivileged
    subst huser
    cases u with
    | false => simpa using hprivileged
    | true => simpa using hunprivileged
  refine ⟨h.frame.symm.trans h'.frame, ?_⟩
  rw [MapOptions.mk.injEq, Access.mk.injEq]
  exact ⟨⟨h.readable.trans h'.readable.symm,
    Bool.not_inj (h.readOnly.symm.trans h'.readOnly), hexecute⟩,
    Bool.not_inj (h.notGlobal.symm.trans h'.notGlobal), huser⟩

end Arm64

/-- Three pointers and a leaf grant what the leaf was composed of, and nothing else. -/
theorem Architecture.grants_iff (ht : ∀ w ∈ p.tables, ∃ b, A.codec.IsPointer w b)
    (hl : A.codec.IsLeafOf p.leaf b o') : A.Grants p a o ↔ a = b ∧ o = o'.normalized := by
  cases A with
  | riscv64 =>
    have hgrants := Sv48.grants_composed ht hl
    exact ⟨fun h => Sv48.Grants.unique h hgrants, fun ⟨ha, ho⟩ => ha ▸ ho ▸ hgrants⟩
  | x86_64 =>
    have hgrants := X86.grants_composed ht hl
    exact ⟨fun h => X86.Grants.unique h hgrants, fun ⟨ha, ho⟩ => ha ▸ ho ▸ hgrants⟩
  | arm64 =>
    have hgrants := Arm64.grants_composed ht hl
    exact ⟨fun h => Arm64.Grants.unique h hgrants, fun ⟨ha, ho⟩ => ha ▸ ho ▸ hgrants⟩

end Sandbox
