import Mathlib.Algebra.GroupWithZero.Nat
import Mathlib.Data.List.Pairwise
import Sandbox.Proofs.Entry.Words
import Sandbox.Register.Scause
import Sandbox.Register.Sstatus

/-! # Fields of packed words

Registers and entries pack their fields into one word, from the lowest bit up and with gaps
between some of them. The fields stand side by side, so each takes every value in its range and
gives it back, whatever the rest of the word holds, and the rest stays as it was.
-/

namespace Sandbox

/-! ## Where fields stand -/

inductive BitRun
  | field (name : String) (width : Nat)
  | gap (width : Nat)

namespace BitRun

def width : BitRun → Nat
  | .field _ width => width
  | .gap width => width

/-- Name, offset and width of the fields, if the first run starts at bit `i`. -/
def place : Nat → List BitRun → List (String × Nat × Nat)
  | _, [] => []
  | i, .field name width :: runs => (name, i, width) :: place (i + width) runs
  | i, .gap width :: runs => place (i + width) runs

variable {i : Nat} {runs : List BitRun} {p : String × Nat × Nat}

theorem le_of_mem_place (h : p ∈ place i runs) : i ≤ p.2.1 := by
  induction runs generalizing i with
  | nil => cases h
  | cons r runs ih =>
    cases r with
    | field name width =>
      rcases List.mem_cons.mp h with rfl | h
      · exact Nat.le_refl i
      · exact Nat.le_trans (Nat.le_add_right i width) (ih h)
    | gap width => exact Nat.le_trans (Nat.le_add_right i width) (ih h)

theorem pairwise_place (i : Nat) (runs : List BitRun) :
    (place i runs).Pairwise fun p q => p.2.1 + p.2.2 ≤ q.2.1 := by
  induction runs generalizing i with
  | nil => exact .nil
  | cons r runs ih =>
    cases r with
    | field name width => exact .cons (fun _ => le_of_mem_place) (ih (i + width))
    | gap width => exact ih (i + width)

example : place 0 [.gap 1, .field "sie" 1, .gap 3, .field "spie" 1] =
    [("sie", 1, 1), ("spie", 5, 1)] := rfl

end BitRun

/-! ## Values and their codes -/

namespace Reading

/-- The values in the range of a field of some width, with the codes that stand for them. -/
inductive Encodes (width : Nat) : Reading → Value → Word → Prop
  | flag (b : Bool) : Encodes width .flag (.flag b) (if b then 1 else 0)
  | number {n : Nat} (h : n < 2 ^ width) : Encodes width .number (.number n) (.ofNat 64 n)
  | word {c : Word} (h : c.toNat < 2 ^ width) : Encodes width .word (.word c) c
  | choice {names : List (Nat × String)} {code : Nat} {name : String}
      (h : (code, name) ∈ names) : Encodes width (.choice names) (.choice name) (.ofNat 64 code)

/-- All values that are read this way have a code of this width, and no two share one. -/
def Suits (width : Nat) : Reading → Prop
  | .flag => width = 1
  | .choice names => (names.map Prod.fst).Nodup ∧ ∀ n ∈ names, n.1 < 2 ^ width
  | .number | .word => True

instance (width : Nat) : (r : Reading) → Decidable (r.Suits width)
  | .flag => inferInstanceAs (Decidable (_ = _))
  | .choice _ => inferInstanceAs (Decidable (_ ∧ _))
  | .number | .word => .isTrue trivial

theorem choiceName_of_mem {names : List (Nat × String)} {code : Nat} {name : String}
    (hcodes : (names.map Prod.fst).Nodup) (h : (code, name) ∈ names) :
    choiceName names code = name := by
  obtain ⟨before, after, rfl⟩ := List.append_of_mem h
  have hlookup : (before ++ (code, name) :: after).lookup code = some name := by
    refine List.lookup_eq_some_iff.mpr ⟨before, after, rfl, ?_⟩
    intro p hp
    rw [List.map_append, List.nodup_append] at hcodes
    have hne := hcodes.2.2 p.1 (List.mem_map_of_mem hp) code (by simp)
    simpa using hne.symm
  simp [choiceName, hlookup]

end Reading

namespace BitField

variable {f : BitField} {n : Nat}

theorem width_le (f : BitField) : f.width ≤ 64 :=
  Nat.le_trans (Nat.le_add_left _ _) f.le_word

theorem toNat_code (f : BitField) (h : n < 2 ^ f.width) : (BitVec.ofNat 64 n).toNat = n := by
  have hle : 2 ^ f.width ≤ 2 ^ 64 := Nat.pow_le_pow_right (by decide) f.width_le
  exact Nat.mod_eq_of_lt (Nat.lt_of_lt_of_le h hle)

theorem fits_code (h : n < 2 ^ f.width) : f.Fits (.ofNat 64 n) := by
  rwa [fits_iff, toNat_code f h]

end BitField

namespace NamedField

variable {f : NamedField} {v : Reading.Value} {c : Word}

theorem fits_of_encodes (hf : f.reading.Suits f.field.width)
    (hc : f.reading.Encodes f.field.width v c) : f.field.Fits c := by
  generalize f.reading = r at hf hc
  cases hc with
  | flag b =>
    rw [BitField.fits_iff, show f.field.width = 1 from hf]
    cases b <;> decide
  | number h => exact BitField.fits_code h
  | word h => exact BitField.fits_iff.mpr h
  | choice h => exact BitField.fits_code (hf.2 _ h)

theorem value_set (hf : f.reading.Suits f.field.width)
    (hc : f.reading.Encodes f.field.width v c) (w : Word) :
    f.value (f.field.set (c.setWidth _) w) = v := by
  have hget : (f.field.get (f.field.set (c.setWidth _) w)).toNat = c.toNat := by
    have hlt := BitField.fits_iff.mp (fits_of_encodes hf hc)
    rw [BitField.get_set, BitVec.toNat_setWidth, Nat.mod_eq_of_lt hlt]
  unfold value
  generalize f.reading = r at hf hc
  cases hc with
  | flag b =>
    have hwidth : f.field.width = 1 := hf
    have := f.field.le_word
    rw [BitField.flag, BitField.getLsbD_set _ _ _ _ (by omega), if_pos (by omega)]
    cases b <;> simp [hwidth]
  | number h => simp only [hget, BitField.toNat_code f.field h]
  | word h =>
    have hword : f.field.word (f.field.set (c.setWidth _) w) = c := by
      apply BitVec.eq_of_toNat_eq
      rw [BitField.word, BitVec.toNat_setWidth, hget, Nat.mod_eq_of_lt c.isLt]
    simp only [hword]
  | choice h =>
    simp only [hget, BitField.toNat_code f.field (hf.2 _ h), Reading.choiceName_of_mem hf.1 h]

/-! ## Assignments -/

def assign (f : NamedField) (c : Word) : Action Word Unit :=
  .replace (f.field.store c)

variable {w : Word}

theorem assign_of_fits (h : f.field.Fits c) : (f.assign c).outcome w = .ok () ∧
    (f.assign c).final w = f.field.set (c.setWidth _) w :=
  Action.replace_ok (BitField.store_of_fits h w)

theorem assign_of_not_fits (h : ¬ f.field.Fits c) :
    (f.assign c).outcome w = .error (.abort (.fieldOutOfBounds f.field.width)) ∧
      (f.assign c).final w = w :=
  Action.replace_error (BitField.store_of_not_fits h w)

theorem final_assign (f : NamedField) (c w : Word) : (f.assign c).final w =
    if f.field.Fits c then f.field.set (c.setWidth _) w else w := by
  split
  · exact (assign_of_fits ‹_›).2
  · exact (assign_of_not_fits ‹_›).2

theorem final_assign_setWidth (f : NamedField) (a : BitVec f.field.width) (w : Word) :
    (f.assign (a.setWidth 64)).final w = f.field.set a w := by
  have hle := f.field.width_le
  have hfits : f.field.Fits (a.setWidth 64) := by
    rw [BitField.fits_iff, BitVec.toNat_setWidth_of_le hle]
    exact a.isLt
  rw [(assign_of_fits hfits).2, BitVec.setWidth_setWidth_of_le _ hle, BitVec.setWidth_eq]

structure Stores (f : NamedField) (v : Reading.Value) (c w : Word) : Prop where
  outcome : (f.assign c).outcome w = .ok ()
  value : f.value ((f.assign c).final w) = v
  kept (i : Nat) (hi : ¬ (f.field.offset ≤ i ∧ i < f.field.offset + f.field.width)) :
    ((f.assign c).final w).getLsbD i = w.getLsbD i

theorem stores_of_encodes (hf : f.reading.Suits f.field.width)
    (hc : f.reading.Encodes f.field.width v c) (w : Word) : f.Stores v c w := by
  obtain ⟨hok, hfinal⟩ := assign_of_fits (w := w) (fits_of_encodes hf hc)
  constructor
  case outcome => exact hok
  case value => rw [hfinal, value_set hf hc]
  case kept =>
    intro i hi
    refine Word.getLsbD_eq_of_lt fun hlt => ?_
    rw [hfinal, BitField.getLsbD_set _ _ _ _ hlt, if_neg hi]

end NamedField

/-! ## Layouts -/

namespace RegisterLayout

/-- The fields of the layout stand where the runs put them, the runs fill the word, and each
field is wide enough for its values. -/
structure LaidOut (l : RegisterLayout) (runs : List BitRun) : Prop where
  fields_eq : l.fields.map (fun f => (f.name, f.field.offset, f.field.width)) =
    BitRun.place 0 runs
  sum_eq : (runs.map BitRun.width).sum = 64
  suits : ∀ f ∈ l.fields, f.reading.Suits f.field.width

/-- Each field of the register has a value of its own. What is in its range is stored and read
back, what is beyond is rejected, and assignments to other fields make no difference to it. -/
structure KeepsFields (l : RegisterLayout) : Prop where
  stores {f : NamedField} (hf : f ∈ l.fields) {v : Reading.Value} {c : Word}
    (hc : f.reading.Encodes f.field.width v c) (w : Word) : f.Stores v c w
  rejects {f : NamedField} (hf : f ∈ l.fields) {c : Word} (hc : 2 ^ f.field.width ≤ c.toNat)
    (w : Word) : (f.assign c).outcome w = .error (.abort (.fieldOutOfBounds f.field.width)) ∧
      (f.assign c).final w = w
  comm {f g : NamedField} (hf : f ∈ l.fields) (hg : g ∈ l.fields) (hne : f ≠ g) (a b w : Word) :
    (g.assign b).final ((f.assign a).final w) = (f.assign a).final ((g.assign b).final w)
  /-- Every pattern of the bits of a field can be assigned, and is the pattern that is stored. -/
  set_eq {f : NamedField} (hf : f ∈ l.fields) (a : BitVec f.field.width) (w : Word) :
    (f.assign (a.setWidth 64)).final w = f.field.set a w

variable {l : RegisterLayout} {runs : List BitRun} {f g : NamedField}

theorem LaidOut.apart (h : l.LaidOut runs) (hf : f ∈ l.fields) (hg : g ∈ l.fields)
    (hne : f ≠ g) : f.field.Apart g.field := by
  have hplace := BitRun.pairwise_place 0 runs
  rw [← h.fields_eq, List.pairwise_map] at hplace
  have hsymm : Std.Symm fun f g : NamedField => f.field.Apart g.field := ⟨fun _ _ => Or.symm⟩
  have hapart : l.fields.Pairwise fun f g => f.field.Apart g.field := hplace.imp Or.inl
  exact hapart.forall hf hg hne

theorem LaidOut.keepsFields (h : l.LaidOut runs) : l.KeepsFields := by
  constructor
  case stores => exact fun hf _ _ hc w => NamedField.stores_of_encodes (h.suits _ hf) hc w
  case rejects =>
    intro f _ c hc w
    exact NamedField.assign_of_not_fits (mt BitField.fits_iff.mp (Nat.not_lt.mpr hc))
  case comm =>
    intro f g hf hg hne a b w
    simp only [NamedField.final_assign]
    split_ifs
    · exact (h.apart hf hg hne).set_comm _ _ w
    all_goals rfl
  case set_eq => exact fun _ => NamedField.final_assign_setWidth _

end RegisterLayout

/-! ## The registers and entries -/

inductive PackedWord
  | satp | cr3 | ttbr0 | scause | sstatus | sv48 | x86 | arm64
  deriving DecidableEq, Repr

namespace PackedWord

def layout : PackedWord → RegisterLayout
  | .satp => Satp.layout
  | .cr3 => Cr3.layout
  | .ttbr0 => Ttbr0.layout
  | .scause => Scause.layout
  | .sstatus => Sstatus.layout
  | .sv48 => Sv48.layout
  | .x86 => X86.layout
  | .arm64 => Arm64.layout

def runs : PackedWord → List BitRun
  | .satp => [.field "ppn" 44, .field "asid" 16, .field "mode" 4]
  | .cr3 => [.field "pcid" 12, .field "pml4_base_4k" 40, .field "reserved" 11, .field "no_flush" 1]
  | .ttbr0 => [.field "cnp" 1, .field "baddr" 47, .field "asid" 16]
  | .scause => [.field "code" 63, .field "interrupt" 1]
  | .sstatus => [.gap 1, .field "sie" 1, .gap 3, .field "spie" 1, .field "ube" 1, .gap 1,
      .field "spp" 1, .field "vs" 2, .gap 2, .field "fs" 2, .field "xs" 2, .gap 1, .field "sum" 1,
      .field "mxr" 1, .gap 12, .field "uxl" 2, .gap 29, .field "sd" 1]
  | .sv48 => [.field "valid" 1, .field "readable" 1, .field "writable" 1, .field "executable" 1,
      .field "user" 1, .field "global" 1, .field "accessed" 1, .field "dirty" 1, .field "rsw" 2,
      .field "ppn" 44, .gap 7, .field "pbmt" 2, .field "napot" 1]
  | .x86 => [.field "present" 1, .field "writable" 1, .field "user" 1, .field "write_through" 1,
      .field "cache_disable" 1, .field "accessed" 1, .field "dirty" 1, .field "large_page" 1,
      .field "global" 1, .field "table" 1, .field "os_available" 2, .field "frame" 40, .gap 11,
      .field "no_execute" 1]
  | .arm64 => [.field "valid" 1, .field "descriptor" 1, .field "attr_index" 3,
      .field "non_secure" 1, .field "user" 1, .field "read_only" 1, .field "shareability" 2,
      .field "accessed" 1, .field "not_global" 1, .field "output" 36, .gap 3,
      .field "dirty_bit_modifier" 1, .field "contiguous" 1, .field "privileged_execute_never" 1,
      .field "user_execute_never" 1, .field "software0" 1, .field "table" 1, .gap 7]

theorem laidOut (p : PackedWord) : p.layout.LaidOut p.runs := by
  cases p <;> exact ⟨by decide, by decide, by decide⟩

end PackedWord

theorem Sstatus.getLsbD_forUserEntry (w : Word) {i : Nat} (hi : i < 64) :
    (forUserEntry w).getLsbD i =
      if i = sum.offset then false else if i = spie.offset then true
      else if i = spp.offset then false else w.getLsbD i := by
  rw [forUserEntry, BitField.getLsbD_setFlag (f := sum) rfl _ _ hi,
    BitField.getLsbD_setFlag (f := spie) rfl _ _ hi, BitField.getLsbD_setFlag (f := spp) rfl _ _ hi]

/-- The fields of registers and entries are kept apart, and entering user mode touches three
bits. -/
theorem packedWords_keepFields :
    (∀ p : PackedWord, p.layout.LaidOut p.runs ∧ p.layout.KeepsFields) ∧
    (∀ (m : Satp.Mode) (w : Word),
      Satp.pagingMode (Satp.mode.set (m.code.setWidth 4) w) = m) ∧
    (∀ (s : Sstatus.FpStatus) (w : Word), Sstatus.fpStatus (Sstatus.setFpStatus s w) = s) ∧
    (∀ (w : Word) (i : Nat), i ∉ [Sstatus.spp.offset, Sstatus.spie.offset, Sstatus.sum.offset] →
      (Sstatus.forUserEntry w).getLsbD i = w.getLsbD i) := by
  refine ⟨?_, ?_, ?_, ?_⟩
  · exact fun p => ⟨p.laidOut, p.laidOut.keepsFields⟩
  · exact Satp.pagingMode_set
  · exact Sstatus.fpStatus_setFpStatus
  · intro w i hi
    refine Word.getLsbD_eq_of_lt fun hlt => ?_
    simp only [List.mem_cons, List.not_mem_nil, or_false, not_or] at hi
    rw [Sstatus.getLsbD_forUserEntry w hlt, if_neg hi.2.2, if_neg hi.2.1, if_neg hi.1]

end Sandbox
