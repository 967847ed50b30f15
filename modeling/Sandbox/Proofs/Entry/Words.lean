import Sandbox.Entry.Array
import Sandbox.Proofs.Memory.Edit

/-! # What entries hold

An update of an entry either aborts and stores nothing, or stores one word that its arguments
determine, whatever stood in the entry. What was stored reads back. The two parts of a word
are told apart by the option mask, for every word and not only for those that are ever stored.
-/

namespace Sandbox

open EntryArray

/-- Bits of a physical address that the entries of an architecture have room for. -/
def Architecture.physicalBits : Architecture → Nat
  | .riscv64 => 56
  | .x86_64 => 52
  | .arm64 => 48

theorem Architecture.fits_iff (A : Architecture) (a : PhysicalAddress) :
    A.codec.Fits a ↔ a.word.toNat < 2 ^ A.physicalBits := by
  have hbits : 2 ^ A.physicalBits = 2 ^ A.codec.frame.width * 2 ^ 12 := by cases A <;> rfl
  rw [EntryCodec.fits_iff, hbits, Nat.div_lt_iff_lt_mul (Nat.two_pow_pos 12)]

/-! ## Updates where the entry stands -/

namespace EntryArray

def edit (c : EntryCodec) (i : Fin 512) (u : Update) : Action EntryArray Unit := do
  let t ← Action.read
  let t ← t.update c i u
  Action.update fun _ => t

def Rejects (c : EntryCodec) (t : EntryArray) (i : Fin 512) (u : Update) : Prop :=
  ∃ e, (edit c i u).outcome t = .error (.abort e) ∧ (edit c i u).final t = t

structure Stores (c : EntryCodec) (t : EntryArray) (i : Fin 512) (u : Update) (w : Word) :
    Prop where
  outcome : (edit c i u).outcome t = .ok ()
  final : (edit c i u).final t = t.put i w
  reads : ((edit c i u).final t).get i = w
  others : ∀ j ≠ i, ((edit c i u).final t).get j = t.get j

variable {c : EntryCodec} {t : EntryArray} {i : Fin 512} {u : Update} {w : Word} {e : Abort}

theorem stores_of_ok (h : t.updated c i u = .ok w) : Stores c t i u w := by
  have hupdate : t.update c i u = .ok (t.put i w) := by
    rw [update, h]
    rfl
  have hedit : (edit c i u).outcome t = .ok () ∧ (edit c i u).final t = t.put i w :=
    Action.replace_ok hupdate
  constructor
  case outcome => exact hedit.1
  case final => exact hedit.2
  case reads => rw [hedit.2, get_put, if_pos rfl]
  case others =>
    intro j hj
    rw [hedit.2, get_put, if_neg hj]

theorem rejects_of_error (h : t.updated c i u = .error e) : Rejects c t i u := by
  have hupdate : t.update c i u = .error e := by
    rw [update, h]
    rfl
  exact ⟨e, Action.replace_error hupdate⟩

end EntryArray

namespace EntryCodec

variable {c : EntryCodec} {a : PhysicalAddress} {o : MapOptions} {bits old w w' : Word}

theorem compose_of_not_fits (h : ¬ c.Fits a) :
    c.compose a bits = .error (.fieldOutOfBounds c.frame.width) :=
  BitField.store_of_not_fits h bits

theorem leaf_of_unaligned (h : ¬ a.isPageAligned = true) :
    c.leaf a o = .error (.unalignedFrame a) := by
  unfold leaf leafWith require
  rw [if_neg h]
  rfl

theorem leaf_of_aligned (h : a.isPageAligned = true) :
    c.leaf a o = if o.access.any then c.compose a (c.leafBits o) else .ok 0 := by
  unfold leaf leafWith bits? require
  rw [if_pos h]
  cases o.access.any <;> rfl

theorem table_of_isValid (h : c.isValid old = true) : c.table old a = .error .entryInUse := by
  unfold table require
  rw [if_neg (not_not_intro h)]
  rfl

theorem table_of_unaligned (hold : ¬ c.isValid old = true) (h : ¬ a.isPageAligned = true) :
    c.table old a = .error (.unalignedFrame a) := by
  unfold table require
  rw [if_pos hold, if_neg h]
  rfl

theorem table_of_aligned (hold : ¬ c.isValid old = true) (h : a.isPageAligned = true) :
    c.table old a = c.compose a c.tableBits := by
  unfold table require
  rw [if_pos hold, if_pos h]
  rfl

end EntryCodec

/-! ## The two parts of a word -/

theorem Word.getLsbD_congr {m w w' : Word} (h : w &&& m = w' &&& m) {i : Nat}
    (hi : m.getLsbD i = true) : w.getLsbD i = w'.getLsbD i := by
  have hbit := congrArg (·.getLsbD i) h
  simpa only [BitVec.getLsbD_and, hi, Bool.and_true] using hbit

theorem BitField.get_congr {f : BitField} {m w w' : Word} (h : w &&& m = w' &&& m)
    (hf : ∀ i < 64, f.offset ≤ i → i < f.offset + f.width → m.getLsbD i = true) :
    f.get w = f.get w' := by
  have hword := f.le_word
  apply BitVec.eq_of_getLsbD_eq
  intro i hi
  rw [getLsbD_get, getLsbD_get, Word.getLsbD_congr h (hf _ (by omega) (by omega) (by omega))]

/-- The option mask separates what the codec reads as options from what it reads as an
address. -/
structure EntryCodec.Separates (c : EntryCodec) : Prop where
  isValid {w w' : Word} (h : w &&& c.optionMask = w' &&& c.optionMask) :
    c.isValid w = c.isValid w'
  isIntermediate {w w' : Word} (h : w &&& c.optionMask = w' &&& c.optionMask) :
    c.isIntermediate w = c.isIntermediate w'
  options {w w' : Word} (h : w &&& c.optionMask = w' &&& c.optionMask) :
    c.options w = c.options w'
  address {w w' : Word} (h : w &&& ~~~c.optionMask = w' &&& ~~~c.optionMask) :
    c.address w = c.address w'

namespace EntryCodec

variable {c : EntryCodec} {w w' : Word}

theorem address_congr (h : w &&& ~~~c.optionMask = w' &&& ~~~c.optionMask)
    (hframe : ∀ i < 64, c.frame.offset ≤ i → i < c.frame.offset + c.frame.width →
      (~~~c.optionMask).getLsbD i = true) : c.address w = c.address w' := by
  rw [address, address, BitField.word, BitField.word, BitField.get_congr h hframe]

end EntryCodec

theorem Sv48.separates : Sv48.codec.Separates := by
  have hbit {w w' : Word} (h : w &&& 0x3ff = w' &&& 0x3ff) (i : Nat)
      (hi : (0x3ff : Word).getLsbD i = true) : w.getLsbD i = w'.getLsbD i :=
    Word.getLsbD_congr h hi
  constructor
  case isValid => exact fun h => hbit h 0 (by decide)
  case isIntermediate =>
    intro w w' h
    have h₀ : Sv48.valid.flag w = Sv48.valid.flag w' := hbit h 0 (by decide)
    have h₁ : Sv48.readable.flag w = Sv48.readable.flag w' := hbit h 1 (by decide)
    have h₂ : Sv48.writable.flag w = Sv48.writable.flag w' := hbit h 2 (by decide)
    have h₃ : Sv48.executable.flag w = Sv48.executable.flag w' := hbit h 3 (by decide)
    simp only [EntryCodec.isIntermediate, Sv48.codec, h₀, h₁, h₂, h₃]
  case options =>
    intro w w' h
    have h₂ : Sv48.writable.flag w = Sv48.writable.flag w' := hbit h 2 (by decide)
    have h₃ : Sv48.executable.flag w = Sv48.executable.flag w' := hbit h 3 (by decide)
    have h₄ : Sv48.user.flag w = Sv48.user.flag w' := hbit h 4 (by decide)
    have h₅ : Sv48.global.flag w = Sv48.global.flag w' := hbit h 5 (by decide)
    simp only [Sv48.codec, h₂, h₃, h₄, h₅]
  case address => exact fun h => EntryCodec.address_congr h (by decide)

theorem X86.separates : X86.codec.Separates := by
  have hbit {w w' : Word} (h : w &&& 0x8000000000000fff = w' &&& 0x8000000000000fff) (i : Nat)
      (hi : (0x8000000000000fff : Word).getLsbD i = true) : w.getLsbD i = w'.getLsbD i :=
    Word.getLsbD_congr h hi
  constructor
  case isValid => exact fun h => hbit h 0 (by decide)
  case isIntermediate =>
    intro w w' h
    have h₀ : X86.present.flag w = X86.present.flag w' := hbit h 0 (by decide)
    have h₉ : X86.table.flag w = X86.table.flag w' := hbit h 9 (by decide)
    simp only [EntryCodec.isIntermediate, X86.codec, h₀, h₉]
  case options =>
    intro w w' h
    have h₁ : X86.writable.flag w = X86.writable.flag w' := hbit h 1 (by decide)
    have h₂ : X86.user.flag w = X86.user.flag w' := hbit h 2 (by decide)
    have h₈ : X86.global.flag w = X86.global.flag w' := hbit h 8 (by decide)
    have hx : X86.noExecute.flag w = X86.noExecute.flag w' := hbit h 63 (by decide)
    simp only [X86.codec, h₁, h₂, h₈, hx]
  case address => exact fun h => EntryCodec.address_congr h (by decide)

theorem Arm64.separates : Arm64.codec.Separates := by
  have hbit {w w' : Word} (h : w &&& 0xffff000000000fff = w' &&& 0xffff000000000fff) (i : Nat)
      (hi : (0xffff000000000fff : Word).getLsbD i = true) : w.getLsbD i = w'.getLsbD i :=
    Word.getLsbD_congr h hi
  constructor
  case isValid => exact fun h => hbit h 0 (by decide)
  case isIntermediate =>
    intro w w' h
    have h₀ : Arm64.valid.flag w = Arm64.valid.flag w' := hbit h 0 (by decide)
    have ht : Arm64.table.flag w = Arm64.table.flag w' := hbit h 56 (by decide)
    simp only [EntryCodec.isIntermediate, Arm64.codec, h₀, ht]
  case options =>
    intro w w' h
    have h₆ : Arm64.user.flag w = Arm64.user.flag w' := hbit h 6 (by decide)
    have h₇ : Arm64.readOnly.flag w = Arm64.readOnly.flag w' := hbit h 7 (by decide)
    have hn : Arm64.notGlobal.flag w = Arm64.notGlobal.flag w' := hbit h 11 (by decide)
    have hp : Arm64.privilegedExecuteNever.flag w = Arm64.privilegedExecuteNever.flag w' :=
      hbit h 53 (by decide)
    have hu : Arm64.userExecuteNever.flag w = Arm64.userExecuteNever.flag w' :=
      hbit h 54 (by decide)
    simp only [Arm64.codec, h₆, h₇, hn, hp, hu]
  case address => exact fun h => EntryCodec.address_congr h (by decide)

theorem Architecture.separates : ∀ A : Architecture, A.codec.Separates
  | .riscv64 => Sv48.separates
  | .x86_64 => X86.separates
  | .arm64 => Arm64.separates

/-! ## Entries read back -/

namespace Architecture

variable {A : Architecture} {a : PhysicalAddress} {o : MapOptions}

/-- What a leaf for `a` needs of its address. Without access the address is not stored. -/
def TakesLeaf (A : Architecture) (a : PhysicalAddress) (o : MapOptions) : Prop :=
  a.isPageAligned = true ∧ (o.access.any = true → a.word.toNat < 2 ^ A.physicalBits)

def TakesTable (A : Architecture) (a : PhysicalAddress) : Prop :=
  a.isPageAligned = true ∧ a.word.toNat < 2 ^ A.physicalBits

structure ReadsLeaf (A : Architecture) (w : Word) (a : PhysicalAddress) (o : MapOptions) :
    Prop where
  isValid : A.codec.isValid w = true
  isIntermediate : A.codec.isIntermediate w = false
  address : A.codec.address w = a
  options : A.codec.options w = o.normalized

structure ReadsTable (A : Architecture) (w : Word) (a : PhysicalAddress) : Prop where
  isValid : A.codec.isValid w = true
  isIntermediate : A.codec.isIntermediate w = true
  address : A.codec.address w = a

theorem leaf_eq_ok (h : A.TakesLeaf a o) : ∃ w, A.codec.leaf a o = .ok w ∧
    (o.access.any = false → w = 0) ∧ (o.access.any = true → A.ReadsLeaf w a o) := by
  have hc := A.lawful
  rw [EntryCodec.leaf_of_aligned h.1]
  cases ho : o.access.any with
  | false => exact ⟨0, rfl, fun _ => rfl, nofun⟩
  | true =>
    have hfits := (A.fits_iff a).mpr (h.2 ho)
    have hleaf : A.codec.IsLeafOf _ a o := ⟨ho, h.1, EntryCodec.compose_of_fits hfits⟩
    refine ⟨_, hleaf.2.2, nofun, fun _ => ?_⟩
    constructor
    case isValid => exact hleaf.isValid hc
    case isIntermediate =>
      rw [EntryCodec.isIntermediate, hleaf.isTable hc, Bool.and_false]
    case address => exact hleaf.address_eq hc
    case options => exact hleaf.options_eq hc

theorem leaf_eq_error (h : ¬ A.TakesLeaf a o) : ∃ e, A.codec.leaf a o = .error e := by
  by_cases ha : a.isPageAligned = true
  · obtain ⟨ho, hwide⟩ := Classical.not_imp.mp fun hfits => h ⟨ha, hfits⟩
    rw [EntryCodec.leaf_of_aligned ha, if_pos ho]
    exact ⟨_, EntryCodec.compose_of_not_fits (mt (A.fits_iff a).mp hwide)⟩
  · exact ⟨_, EntryCodec.leaf_of_unaligned ha⟩

theorem table_eq_ok (h : A.TakesTable a) : ∃ w, A.ReadsTable w a ∧
    ∀ old, A.codec.isValid old = false → A.codec.table old a = .ok w := by
  have hc := A.lawful
  have hpointer : A.codec.IsPointer _ a :=
    ⟨h.1, EntryCodec.compose_of_fits ((A.fits_iff a).mpr h.2)⟩
  refine ⟨_, ⟨hpointer.isValid hc, hpointer.isIntermediate hc, hpointer.address_eq hc⟩, ?_⟩
  intro old hold
  rw [EntryCodec.table_of_aligned (Bool.eq_false_iff.mp hold) h.1]
  exact hpointer.2

theorem table_eq_error {old : Word} (h : A.codec.isValid old = true ∨ ¬ A.TakesTable a) :
    ∃ e, A.codec.table old a = .error e := by
  by_cases hold : A.codec.isValid old = true
  · exact ⟨_, EntryCodec.table_of_isValid hold⟩
  · by_cases ha : a.isPageAligned = true
    · have hwide : ¬ a.word.toNat < 2 ^ A.physicalBits :=
        fun hlt => (h.resolve_left hold) ⟨ha, hlt⟩
      rw [EntryCodec.table_of_aligned hold ha]
      exact ⟨_, EntryCodec.compose_of_not_fits (mt (A.fits_iff a).mp hwide)⟩
    · exact ⟨_, EntryCodec.table_of_unaligned hold ha⟩

/-- Entries hold what they were given. A leaf or a pointer that cannot be stored is rejected
and leaves its array as it was. What is stored is one word for all arrays and slots: it never
depends on what the entry held before, and it reads back as what it was made of. -/
structure StoresFaithfully (A : Architecture) : Prop where
  leaf_rejected {a : PhysicalAddress} {o : MapOptions} (h : ¬ A.TakesLeaf a o)
    (t : EntryArray) (i : Fin 512) : Rejects A.codec t i (.leaf a o)
  leaf_stored {a : PhysicalAddress} {o : MapOptions} (h : A.TakesLeaf a o) :
    ∃ w, (∀ t i, Stores A.codec t i (.leaf a o) w) ∧ (o.access.any = false → w = 0) ∧
      (o.access.any = true → A.ReadsLeaf w a o)
  table_rejected {a : PhysicalAddress} {t : EntryArray} {i : Fin 512}
    (h : A.codec.isValid (t.get i) = true ∨ ¬ A.TakesTable a) : Rejects A.codec t i (.table a)
  table_stored {a : PhysicalAddress} (h : A.TakesTable a) :
    ∃ w, (∀ t i, A.codec.isValid (t.get i) = false → Stores A.codec t i (.table a) w) ∧
      A.ReadsTable w a
  separates : A.codec.Separates

/-- Every architecture stores leaves and pointers faithfully. -/
theorem storesFaithfully (A : Architecture) : A.StoresFaithfully := by
  constructor
  case leaf_rejected =>
    intro a o h t i
    obtain ⟨e, he⟩ := leaf_eq_error h
    exact rejects_of_error he
  case leaf_stored =>
    intro a o h
    obtain ⟨w, hw, hread⟩ := leaf_eq_ok h
    exact ⟨w, fun _ _ => stores_of_ok hw, hread⟩
  case table_rejected =>
    intro a t i h
    obtain ⟨e, he⟩ := table_eq_error h
    exact rejects_of_error he
  case table_stored =>
    intro a h
    obtain ⟨w, hread, hw⟩ := table_eq_ok h
    exact ⟨w, fun t i hold => stores_of_ok (hw (t.get i) hold), hread⟩
  case separates => exact A.separates

end Architecture

end Sandbox
