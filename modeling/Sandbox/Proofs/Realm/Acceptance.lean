import Sandbox.Proofs.Realm.Economy
import Sandbox.Proofs.Realm.Sharing
import Sandbox.Proofs.Space.Sight
import Sandbox.Proofs.Walk.Detour

/-! # Which ranges are accepted

The checks of a call are spread over several functions. Together they come to one condition on
the range and the space, and all of them are made before the first change: a call that fails any
of them does nothing but abort. What they keep out is never reached from within either, so the
last page stays unmapped and no walk takes an address in the hole for one of a page.
-/

namespace Sandbox

open AddressSpace Walk

variable {A : Architecture} {S : List (AddressSpace A)} {R : Realm A} {s : AddressSpace A}
  {m : Memory} {a : VirtualAddress} {length start stop : Word} {o : MapOptions}
  {physical : PhysicalAddress}

namespace Action

/-- The action returns if a condition holds, and otherwise does nothing but abort. -/
structure Guarded {σ β : Type} (p : Prop) (act : Action σ β) (x : σ) : Prop where
  returns : p → ∃ y, act.outcome x = .ok y
  aborts : ¬ p → ∃ e : Abort, act = throw (.abort e)

theorem Guarded.rejected {σ β : Type} {p : Prop} {act : Action σ β} {x : σ}
    (h : act.Guarded p x) (hn : ¬ p) :
    (∃ e : Abort, act.outcome x = .error (.abort e)) ∧ act.final x = x := by
  obtain ⟨e, rfl⟩ := h.aborts hn
  exact ⟨⟨e, rfl⟩, rfl⟩

end Action

/-- The range can be walked: it starts at a page, ends below the last page, and lies in the
canonical halves, with its start if it is empty. -/
structure Walkable (a : VirtualAddress) (length : Word) : Prop where
  aligned : a.word.toNat % 4096 = 0
  stop_le : a.word.toNat + length.toNat ≤ maxEnd.toNat
  empty : length = 0 → a.isCanonical = true
  canonical : ∀ x : Word, a.word.toNat ≤ x.toNat → x.toNat < a.word.toNat + length.toNat →
    Canonical.isCanonical x = true

structure AddressSpace.Admits (s : AddressSpace A) (a : VirtualAddress) (length : Word) : Prop
    extends Walkable a length where
  frozen : s.frozen = false
  below : ∀ u, s.upper = some u → a.word.toNat + length.toNat ≤ u.start.toNat

def Unwrapped (physical : PhysicalAddress) (length : Word) : Prop :=
  physical.word.toNat + (length.toNat - 1) < 2 ^ 64

/-- A mapping that passes all checks fails for want of memory or at a frame only, and otherwise
nothing is done but abort. -/
structure AddressSpace.MapGuarded (s : AddressSpace A) (a : VirtualAddress) (length : Word)
    (o : MapOptions) (physical : PhysicalAddress) (m : Memory) : Prop where
  errors : s.Admits a length → (o.access.any = true → Unwrapped physical length) →
    ((s.map a length o physical).final m).Placed A.codec → ∀ e,
      (s.map a length o physical).outcome m = .error e → e = .refusal .outOfMemory ∨
        (∃ b, e = .abort (.unalignedFrame b)) ∨ e = .abort (.fieldOutOfBounds A.codec.frame.width)
  aborts : ¬ (s.Admits a length ∧ (o.access.any = true → Unwrapped physical length)) →
    ∃ e : Abort, s.map a length o physical = throw (.abort e)

/-! ## Ranges that can be walked -/

theorem walkable_iff_accepted (hstop : stop.toNat = a.word.toNat + length.toNat) :
    Walkable a length ↔ Accepted a.word stop := by
  have hlt := stop.isLt
  constructor
  · intro h
    have hle := h.stop_le
    rw [toNat_maxEnd] at hle
    refine ⟨h.aligned, by omega, by omega, ?_⟩
    by_cases hempty : stop ≤ a.word
    · rw [Canonical.isCanonicalRange, if_pos hempty]
      rw [BitVec.le_def] at hempty
      exact h.empty (BitVec.eq_of_toNat_eq (show length.toNat = 0 by omega))
    · rw [BitVec.not_le, BitVec.lt_def] at hempty
      rw [Canonical.isCanonicalRange_iff_half hempty, ← Canonical.forall_isCanonical_iff_half hempty]
      exact fun x hx hxs => h.canonical x hx (by omega)
  · intro h
    have hle := h.stop_le
    refine ⟨h.aligned, by rw [toNat_maxEnd]; omega, fun hzero => ?_,
      fun x hx hxs => h.isCanonical hx (by omega)⟩
    have hc := h.canonical
    rwa [Canonical.isCanonicalRange, if_pos (by rw [BitVec.le_def, hstop, hzero]; simp)] at hc

theorem Walkable.exists_stop (h : Walkable a length) :
    ∃ stop, bounds a length = .ok (a.word, stop) ∧ Accepted a.word stop := by
  have hle := h.stop_le
  rw [toNat_maxEnd] at hle
  have hlt : a.word.toNat + length.toNat < 2 ^ 64 := by omega
  have hb : bounds a length = .ok (a.word, a.word + length) := by
    unfold bounds orAbort
    rw [Word.add?_eq, if_pos hlt]
    rfl
  exact ⟨_, hb, (walkable_iff_accepted (bounds_eq_ok hb).2).mp h⟩

theorem walkable_of_accept (hb : bounds a length = .ok (start, stop))
    (hacc : accept start stop = .ok ()) : Walkable a length := by
  obtain ⟨rfl, hstop⟩ := bounds_eq_ok hb
  exact (walkable_iff_accepted hstop).mpr (accept_eq_ok_iff.mp hacc)

theorem AddressSpace.Mutable.bounds_eq (h : s.Mutable a length start stop) :
    s.mutableBounds a length = .ok (start, stop) := by
  have hlt := stop.isLt
  have hstop := h.stop_eq
  have hb : bounds a length = .ok (start, stop) := by
    have heq : a.word + length = stop := by
      apply BitVec.eq_of_toNat_eq
      rw [BitVec.toNat_add, Nat.mod_eq_of_lt (by omega), hstop]
    unfold bounds orAbort
    rw [Word.add?_eq, if_pos (by omega), heq, h.start_eq]
    rfl
  have hfrozen : require (¬ s.frozen = true) (.frozen s.owner) = .ok () :=
    if_pos (by rw [h.frozen]; exact Bool.false_ne_true)
  unfold mutableBounds
  rw [hfrozen, hb]
  cases hu : s.upper with
  | none => rfl
  | some u =>
    have hbelow : require (stop ≤ u.start) (.reachesUpper start stop u.start) = .ok () :=
      if_pos (h.stop_le u hu)
    change (do require (stop ≤ u.start) (.reachesUpper start stop u.start)
               pure (start, stop) : Except Abort _) = _
    rw [hbelow]
    rfl

/-- All checks together accept what the space admits. -/
theorem AddressSpace.accepts_iff : s.Accepts a length ↔ s.Admits a length := by
  constructor
  · intro h
    obtain ⟨stop, -, hm, ha⟩ := h.exists_stop
    exact ⟨(walkable_iff_accepted hm.stop_eq).mpr ha, hm.frozen,
      fun u hu => hm.stop_eq ▸ hm.stop_le u hu⟩
  · intro h
    obtain ⟨stop, hb, ha⟩ := h.toWalkable.exists_stop
    have hstop := (bounds_eq_ok hb).2
    have hm : s.Mutable a length a.word stop :=
      ⟨h.frozen, rfl, hstop, fun u hu => hstop.symm ▸ h.below u hu⟩
    exact ⟨a.word, stop, hm.bounds_eq, accept_eq_ok_iff.mpr ha⟩

/-! ## Calls that are turned down -/

theorem Change.aborts (ch : Change) (h : ¬ s.Accepts ch.range.1 ch.range.2) :
    ∃ e : Abort, ch.run s = throw (.abort e) := by
  cases hb : s.mutableBounds ch.range.1 ch.range.2 with
  | error e => exact ⟨e, ch.run_eq_throw hb⟩
  | ok r =>
    obtain ⟨start, stop⟩ := r
    cases hacc : accept start stop with
    | ok u => exact absurd ⟨start, stop, hb, hacc⟩ h
    | error e =>
      have hwalk (v : Visitor Bool) : s.change v start stop false = throw (.abort e) :=
        range_eq_throw hacc
      cases ch with
      | unmap a length => exact ⟨e, (unmap_eq hb).trans (hwalk _)⟩
      | protect a length o =>
        by_cases ho : o.access.any = true
        · exact ⟨e, (protect_eq hb ho).trans (hwalk _)⟩
        · exact ⟨e, (protect_eq_unmap s a length (Bool.eq_false_iff.mpr ho)).trans
            ((unmap_eq hb).trans (hwalk _))⟩
      | map a length o physical =>
        by_cases ho : o.access.any = true
        · rcases map_cases hb ho physical with hthrow | hmap
          · exact ⟨_, hthrow⟩
          · exact ⟨e, hmap.trans (hwalk _)⟩
        · exact ⟨e, (map_eq_unmap s a length (Bool.eq_false_iff.mpr ho) physical).trans
            ((unmap_eq hb).trans (hwalk _))⟩

namespace AddressSpace

/-- Changes without access are unmappings, and return on every range that is accepted. -/
theorem map_guarded (hi : Intact S m) (hs : s ∈ S) (hun : Unshared S s) (a : VirtualAddress)
    (length : Word) (o : MapOptions) (physical : PhysicalAddress) :
    s.MapGuarded a length o physical m where
  errors := by
    intro h hfit hp e he
    have hacc := accepts_iff.mpr h
    obtain ⟨stop, hb, hm, ha⟩ := hacc.exists_stop
    have hedit := (hi.split s hs).editable hun ha hm.stop_le
    by_cases ho : o.access.any = true
    · have hbound : physical.word.toNat + (length.toNat - 1) ≤ (BitVec.allOnes 64).toNat := by
        rw [BitVec.toNat_allOnes]
        exact Nat.le_sub_one_of_lt (hfit ho)
      rw [map_eq hb ho, if_pos hbound] at he hp
      have htriple := extend_triple hs hedit ha (MapOptions.any_normalized ho) physical m
      obtain ⟨-, -, ⟨x, -, -, hfail⟩, -⟩ := htriple.of_error ⟨rfl, hi⟩ hp he
      rcases hfail with ⟨rfl, -⟩ | ⟨b, rfl, hframe⟩
      · exact Or.inl rfl
      · rcases EntryCodec.leafWith_eq_error hframe with rfl | rfl
        · exact Or.inr (Or.inl ⟨_, rfl⟩)
        · exact Or.inr (Or.inr rfl)
    · rw [map_eq_unmap s a length (Bool.eq_false_iff.mpr ho)] at he hp
      have hp₀ := (Change.unmap a length).placed hs (hi.split s hs) hun hp
      obtain ⟨changed, hok⟩ := (unmap_amends hi hs hun hp₀ hacc).returns
      cases he.symm.trans hok
  aborts := by
    intro h
    by_cases hacc : s.Accepts a length
    · obtain ⟨stop, hb, -⟩ := hacc.exists_stop
      rw [not_and, Classical.not_imp] at h
      obtain ⟨ho, hwrap⟩ := h (accepts_iff.mp hacc)
      refine ⟨.physicalOverflow physical length, ?_⟩
      rw [map_eq hb ho, if_neg]
      rw [BitVec.toNat_allOnes]
      exact fun hle => hwrap (Nat.lt_of_le_sub_one (by decide) hle)
    · exact (Change.map a length o physical).aborts hacc

variable (hi : Intact S m) (hs : s ∈ S) (hp : m.Placed A.codec)

include hi hs hp

theorem unmap_guarded (hun : Unshared S s) (a : VirtualAddress) (length : Word) :
    (s.unmap a length).Guarded (s.Admits a length) m where
  returns h := (unmap_amends hi hs hun hp (accepts_iff.mpr h)).returns
  aborts h := (Change.unmap a length).aborts (h ∘ accepts_iff.mp)

theorem protect_guarded (hun : Unshared S s) (a : VirtualAddress) (length : Word)
    (o : MapOptions) : (s.protect a length o).Guarded (s.Admits a length) m where
  returns h := by
    have hacc := accepts_iff.mpr h
    by_cases ho : o.access.any = true
    · exact (protect_amends hi hs hun hp hacc ho).returns
    · rw [protect_eq_unmap s a length (Bool.eq_false_iff.mpr ho)]
      exact (unmap_amends hi hs hun hp hacc).returns
  aborts h := (Change.protect a length o).aborts (h ∘ accepts_iff.mp)

theorem isEmpty_guarded (a : VirtualAddress) (length : Word) :
    (s.isEmpty a length).Guarded (Walkable a length) m where
  returns h := by
    obtain ⟨stop, hb, ha⟩ := h.exists_stop
    obtain ⟨r, hr, -⟩ := spots_occupied.inspect_outcome hi hs hp ha false
    rw [outcome_isEmpty s m hb, hr]
    exact ⟨_, rfl⟩
  aborts h := by
    cases hb : bounds a length with
    | error e => exact ⟨e, isEmpty_eq_throw s hb⟩
    | ok r =>
      obtain ⟨start, stop⟩ := r
      cases hacc : accept start stop with
      | ok u => exact absurd (walkable_of_accept hb hacc) h
      | error e =>
        refine ⟨e, ?_⟩
        unfold isEmpty inspect
        rw [hb, Action.lift_ok_bind]
        dsimp only
        rw [range_eq_throw hacc]
        rfl

end AddressSpace

namespace Realm

theorem Sound.lookup_guarded (h : Sound R) (hp : R.memory.Placed A.codec) (hs : s ∈ R.spaces)
    (x : VirtualAddress) : (s.lookup x).Guarded (x.isCanonical = true) R.memory where
  returns hx := ⟨_, (lookup_outcome h.intact hs hp x).trans (h.answer_of_isCanonical hs hx)⟩
  aborts hx := by
    cases hstop : Word.add? x.pageBase.word pageSize with
    | none =>
      obtain ⟨e, he⟩ := answer_of_not_isCanonical hx s R.memory
      cases (answer_last hstop s R.memory).symm.trans he
    | some stop =>
      rw [lookup_eq hstop]
      exact ⟨_, range_eq_throw (accept_page_error hstop (Bool.eq_false_iff.mpr hx))⟩

/-- Each call is accepted on exactly the ranges that it is meant for, and on all others it does
nothing but abort. So the last page is mapped nowhere, and no walk deals with a slot while its
cursor is in the hole. -/
theorem Reachable.guards_calls (h : Reachable R) (hp : R.memory.Placed A.codec)
    (hs : s ∈ R.spaces) :
    (Unshared R.spaces s → ∀ a length,
      (s.unmap a length).Guarded (s.Admits a length) R.memory ∧
      (∀ o, (s.protect a length o).Guarded (s.Admits a length) R.memory) ∧
      ∀ o physical, s.MapGuarded a length o physical R.memory) ∧
    (∀ a length, (s.isEmpty a length).Guarded (Walkable a length) R.memory) ∧
    (∀ x, (s.lookup x).Guarded (x.isCanonical = true) R.memory) ∧
    A.codec.isValid (s.leafAt R.memory maxEnd) = false ∧
    ∀ (α : Type) (plan : Plan α)
      (other : Level → PhysicalAddress → Fin 512 → Pass α → Action Memory (Pass α))
      (root : PhysicalAddress) (start : Word) (r : α),
      range plan root start r = rangeDiverted plan other root start r := by
  have hsound := h.sound hp
  have hi := hsound.intact
  refine ⟨fun hun a length => ⟨unmap_guarded hi hs hp hun a length,
      protect_guarded hi hs hp hun a length, map_guarded hi hs hun a length⟩,
    isEmpty_guarded hi hs hp, hsound.lookup_guarded hp hs, ?_,
    fun α plan other => range_eq_diverted plan other⟩
  rw [hsound.last s hs maxEnd ⟨by decide, by decide⟩ le_rfl, A.lawful.isValid_zero]

def thirdSpace : AddressSpace .riscv64 :=
  ⟨⟨3⟩, ⟨0x1005000⟩, none, false⟩

/-- Three spaces: the second one shares the upper half of the first, and the third is frozen. -/
def divided : Realm .riscv64 :=
  (single .riscv64 0x1000000).following [mapKernelPage,
    .createAbove (firstSpace .riscv64 0x1000000) ⟨upperBottom⟩ ⟨2⟩, .create ⟨3⟩,
    .freeze thirdSpace]

theorem leads_divided : Leads (fun _ _ => True) (single .riscv64 0x1000000) divided :=
  Permits.leads (by decide +kernel)

/-- The second space may be changed up to the hole but not in the upper half, and the third one not
at all. Both may be looked at wherever pages can be, up to the last byte of the last one, but no
address in the hole is looked up. -/
theorem guards_calls_divided :
    let s := secondSpace
    let t := thirdSpace.freeze
    let m := divided.memory
    (∃ changed, (s.unmap ⟨0x7FFFFFFFF000⟩ 0x1000).outcome m = .ok changed) ∧
    ((∃ e : Abort, (s.unmap ⟨0x7FFFFFFFF000⟩ 0x1001).outcome m = .error (.abort e)) ∧
      (s.unmap ⟨0x7FFFFFFFF000⟩ 0x1001).final m = m) ∧
    ((∃ e : Abort, (s.unmap ⟨upperBottom⟩ 0x1000).outcome m = .error (.abort e)) ∧
      (s.unmap ⟨upperBottom⟩ 0x1000).final m = m) ∧
    (∃ empty, (s.isEmpty ⟨upperBottom⟩ 0x1000).outcome m = .ok empty) ∧
    ((∃ e : Abort, (t.unmap ⟨0x5000⟩ 0x1000).outcome m = .error (.abort e)) ∧
      (t.unmap ⟨0x5000⟩ 0x1000).final m = m) ∧
    (∃ empty, (t.isEmpty ⟨0xFFFFFFFFFFFFE000⟩ 0x1000).outcome m = .ok empty) ∧
    (∃ e : Abort, t.isEmpty ⟨0xFFFFFFFFFFFFE000⟩ 0x1001 = throw (.abort e)) ∧
    ∃ e : Abort, t.lookup ⟨0x800000005000⟩ = throw (.abort e) := by
  intro s t m
  have hreach := leads_divided.reachable (reachable_single .riscv64 0x1000000)
  have hplaced : m.Placed Architecture.riscv64.codec :=
    leads_divided.placed (by decide) (by decide +kernel)
  obtain ⟨hsecond, hsecondEmpty, -⟩ :=
    hreach.guards_calls hplaced (s := s) (by decide +kernel)
  obtain ⟨hthird, hthirdEmpty, hlookup, -⟩ :=
    hreach.guards_calls hplaced (s := t) (by decide +kernel)
  have hunmap (a length) := (hsecond (by decide +kernel) a length).1
  have hfrozen (a length) := (hthird (by decide +kernel) a length).1
  have hlower : Accepted 0x7FFFFFFFF000 0x800000000000 := accept_eq_ok_iff.mp (by decide)
  have hupper : Accepted upperBottom 0xFFFF800000001000 := accept_eq_ok_iff.mp (by decide)
  have hlast : Accepted 0xFFFFFFFFFFFFE000 maxEnd := accept_eq_ok_iff.mp (by decide)
  refine ⟨(hunmap _ _).returns ⟨(walkable_iff_accepted (by decide)).mpr hlower, rfl, ?_⟩,
    (hunmap _ _).rejected fun h => ?_, (hunmap _ _).rejected fun h => ?_,
    (hsecondEmpty _ _).returns ((walkable_iff_accepted (by decide)).mpr hupper),
    (hfrozen _ _).rejected fun h => Bool.noConfusion h.frozen,
    (hthirdEmpty _ _).returns ((walkable_iff_accepted (by decide)).mpr hlast),
    (hthirdEmpty _ _).aborts fun h => ?_, (hlookup _).aborts (by decide)⟩
  · rintro u ⟨⟩
    decide
  · exact absurd (h.canonical 0x800000000000 (by decide) (by decide)) (by decide)
  · exact absurd (h.below _ rfl) (by decide)
  · exact absurd h.stop_le (by decide)

end Realm

end Sandbox
