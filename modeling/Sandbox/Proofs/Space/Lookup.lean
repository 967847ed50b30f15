import Sandbox.Proofs.Walk.Pages
import Sandbox.Proofs.Walk.Reads

/-! # Lookups

In intact memory a lookup answers with the leaf of the page, and changes nothing.
-/

namespace Sandbox

theorem VirtualAddress.toNat_pageBase (a : VirtualAddress) :
    a.pageBase.word.toNat = a.word.toNat / 4096 * 4096 := by
  have hmod : (a.word % pageSize).toNat = a.word.toNat % 4096 := BitVec.toNat_umod
  have hle : a.word % pageSize ≤ a.word := by
    rw [BitVec.le_def, hmod]
    exact Nat.mod_le _ _
  rw [pageBase, BitVec.toNat_sub_of_le hle, hmod]
  omega

namespace AddressSpace

variable {A : Architecture} {S : List (AddressSpace A)} {s : AddressSpace A} {m : Memory}
  {α : Type} {v : Visitor α}

def mapping? (A : Architecture) (x w : Word) : Option Mapping :=
  if A.codec.isValid w then some ⟨⟨x⟩, A.codec.address w, pageSize, A.codec.options w⟩ else none

/-- Visitors that look at pages and accept all of them. -/
structure Watches (v : Visitor α) : Prop where
  allocates : v.allocates = false
  visit : ∀ x w r, ∃ u, v.visit x w r = .ok u ∧ u.entry = none

theorem watches_find (A : Architecture) : Watches (Visitor.find A.codec) :=
  ⟨rfl, fun _ _ _ => ⟨_, rfl, rfl⟩⟩

theorem Watches.readOnly (hv : Watches v) (A : Architecture) (stop : Word) :
    (⟨A.codec, v, false, stop⟩ : Walk.Plan α).ReadOnly where
  reclaim := rfl
  allocates := hv.allocates
  entry := by
    intro x w r u hu
    obtain ⟨u', hu', hentry⟩ := hv.visit x w r
    obtain rfl := Except.ok.inj (hu.symm.trans hu')
    exact hentry

theorem Watches.leaves_inspect (hv : Watches v) (s : AddressSpace A) (start stop : Word) (r : α) :
    (s.inspect v start stop r).Leaves id :=
  Walk.leaves_range (hv.readOnly A stop).leaves s.root start r

theorem Watches.final_inspect (hv : Watches v) (s : AddressSpace A) (start stop : Word) (r : α)
    (m : Memory) : (s.inspect v start stop r).final m = m :=
  (hv.leaves_inspect s start stop r).final_eq m

theorem lookup_last {a : VirtualAddress} (h : Word.add? a.pageBase.word pageSize = none)
    (s : AddressSpace A) : s.lookup a = pure none := by
  unfold lookup
  dsimp -iota only
  rw [h]

theorem lookup_eq {a : VirtualAddress} {stop : Word}
    (h : Word.add? a.pageBase.word pageSize = some stop) (s : AddressSpace A) :
    s.lookup a = s.inspect (Visitor.find A.codec) a.pageBase.word stop none := by
  unfold lookup
  dsimp -iota only
  rw [h]

def answer (s : AddressSpace A) (m : Memory) (a : VirtualAddress) : Except Stop (Option Mapping) :=
  let start := a.pageBase.word
  match start.add? pageSize with
  | none => .ok none
  | some stop =>
    if a.isCanonical then .ok (mapping? A start (s.leafAt m start))
    else .error (.abort (.rangeNotCanonical start stop))

theorem answer_last {a : VirtualAddress} (h : Word.add? a.pageBase.word pageSize = none)
    (s : AddressSpace A) (m : Memory) : s.answer m a = .ok none := by
  unfold answer
  dsimp -iota only
  rw [h]

theorem answer_eq {a : VirtualAddress} {stop : Word}
    (h : Word.add? a.pageBase.word pageSize = some stop) (s : AddressSpace A) (m : Memory) :
    s.answer m a = if a.isCanonical then
        .ok (mapping? A a.pageBase.word (s.leafAt m a.pageBase.word))
      else .error (.abort (.rangeNotCanonical a.pageBase.word stop)) := by
  unfold answer
  dsimp -iota only
  rw [h]

section Page

variable {a : VirtualAddress} {stop : Word} (hstop : Word.add? a.pageBase.word pageSize = some stop)

include hstop

theorem toNat_pageStop : stop.toNat = a.pageBase.word.toNat + 4096 ∧
    stop.toNat ≤ 2 ^ 64 - 4096 := by
  have hbase := a.toNat_pageBase
  rw [Word.add?_eq, toNat_pageSize] at hstop
  split at hstop
  · next h =>
    rw [← Option.some.inj hstop, BitVec.toNat_add, toNat_pageSize, Nat.mod_eq_of_lt h]
    omega
  · cases hstop

theorem isCanonicalRange_page :
    Canonical.isCanonicalRange a.pageBase.word stop = a.isCanonical := by
  obtain ⟨hs, hle⟩ := toNat_pageStop hstop
  have hbase := a.toNat_pageBase
  have hone : (stop - 1).toNat = stop.toNat - 1 :=
    BitVec.toNat_sub_of_le (BitVec.le_def.mpr (show 1 ≤ stop.toNat by omega))
  rw [Canonical.isCanonicalRange, if_neg (by rw [BitVec.le_def]; omega), Bool.eq_iff_iff,
    VirtualAddress.isCanonical, Canonical.isCanonical_iff, Bool.or_eq_true, decide_eq_true_eq,
    decide_eq_true_eq, BitVec.le_def, BitVec.le_def, hone, toNat_lowerTop, toNat_upperBottom]
  omega

theorem accept_page (hc : a.isCanonical = true) : Walk.Accepted a.pageBase.word stop := by
  obtain ⟨hs, hle⟩ := toNat_pageStop hstop
  have hbase := a.toNat_pageBase
  exact ⟨by omega, by omega, hle, by rw [isCanonicalRange_page hstop, hc]⟩

theorem accept_page_error (hc : a.isCanonical = false) :
    Walk.accept a.pageBase.word stop = .error (.rangeNotCanonical a.pageBase.word stop) := by
  obtain ⟨hs, hle⟩ := toNat_pageStop hstop
  have hbase := a.toNat_pageBase
  have haligned : a.pageBase.word % pageSize = 0 := by
    rw [← BitVec.toNat_inj, BitVec.toNat_umod, toNat_pageSize]
    exact (by omega : a.pageBase.word.toNat % 4096 = 0)
  have hord : a.pageBase.word ≤ stop := by rw [BitVec.le_def]; omega
  have hmax : stop ≤ maxEnd := by rw [BitVec.le_def, toNat_maxEnd]; omega
  have hn : ¬ Canonical.isCanonicalRange a.pageBase.word stop = true := by
    rw [isCanonicalRange_page hstop, hc]
    exact Bool.false_ne_true
  unfold Walk.accept require
  rw [if_pos haligned, if_pos hord, if_pos hmax, if_neg hn]
  rfl

theorem eq_pageBase {x : Word} (hx : Walk.Inside a.pageBase.word stop x) :
    x = a.pageBase.word := by
  obtain ⟨hs, -⟩ := toNat_pageStop hstop
  have hbase := a.toNat_pageBase
  have hle := hx.le
  have hlt := hx.lt
  have ha := hx.aligned
  apply BitVec.eq_of_toNat_eq
  omega

theorem find_pages (f : Word → Word) :
    Walk.PageSteps A ⟨A.codec, Visitor.find A.codec, false, stop⟩ a.pageBase.word
      (fun n r g => g = f ∧ r = none ∧ (n = a.pageBase.word.toNat ∨
        A.codec.isValid (f a.pageBase.word) = false))
      (fun r g => g = f ∧ A.codec.isValid (f a.pageBase.word) = true ∧
        r = mapping? A a.pageBase.word (f a.pageBase.word))
      (fun _ _ => False) where
  skip := by
    rintro x r g hx - hv ⟨rfl, rfl, -⟩
    have hpage := eq_pageBase hstop hx
    refine ⟨rfl, rfl, Or.inr ?_⟩
    rw [← hpage, hv, A.lawful.isValid_zero]
  visit := by
    rintro x r g v hx - hval hv ⟨rfl, rfl, -⟩
    have hpage := eq_pageBase hstop hx
    subst hpage
    have hvalid := hval.resolve_right Bool.false_ne_true
    cases hv
    exact ⟨rfl, hvalid, by rw [mapping?, if_pos hvalid]⟩
  abort := by
    rintro x r g e - - - hv -
    cases hv
  full := by
    rintro x r g - hal
    cases hal

end Page

/-- A lookup answers with the leaf of the page. -/
theorem lookup_outcome (h : Intact S m) (hs : s ∈ S) (hp : m.Placed A.codec) (a : VirtualAddress) :
    (s.lookup a).outcome m = s.answer m a := by
  cases hstop : Word.add? a.pageBase.word pageSize with
  | none =>
    rw [lookup_last hstop, answer_last hstop]
    rfl
  | some stop =>
    rw [lookup_eq hstop, answer_eq hstop]
    by_cases hc : a.isCanonical = true
    · have hread := (watches_find A).readOnly A stop
      have hscope : Walk.Scope S s ⟨A.codec, Visitor.find A.codec, false, stop⟩
          a.pageBase.word := by
        refine ⟨rfl, hs, accept_page hstop hc, ?_, Or.inl hread⟩
        intro x w r v w' hv he
        rw [hread.entry _ _ _ _ hv] at he
        cases he
      have htriple := Walk.range_triple hscope
        (Walk.Keeps.pages hscope (find_pages hstop (s.leafAt m))) none
      have hfinal := (watches_find A).final_inspect s a.pageBase.word stop none m
      have hplaced := hfinal.symm ▸ hp
      obtain ⟨hnext, -⟩ := toNat_pageStop hstop
      have hpre : Walk.seen stop a.pageBase.word = a.pageBase.word.toNat :=
        Walk.seen_of_lt (accept_page hstop hc).aligned (by omega)
      rw [if_pos hc]
      cases hout : (s.inspect (Visitor.find A.codec) a.pageBase.word stop none).outcome m with
      | error e => exact (htriple.of_error ⟨h, rfl, rfl, Or.inl hpre⟩ hplaced hout).2.elim
      | ok r =>
        refine congrArg Except.ok ?_
        rcases (htriple.of_ok ⟨h, rfl, rfl, Or.inl hpre⟩ hplaced hout).2 with
          ⟨y, (hy : stop.toNat ≤ y.toNat), -, rfl, hor⟩ | ⟨-, -, hr⟩
        · have hend : Walk.seen stop y ≠ a.pageBase.word.toNat := by
            rw [Walk.seen_of_stop_le hy, Walk.pageEnd]
            omega
          rw [mapping?, if_neg (by rw [hor.resolve_left hend]; exact Bool.false_ne_true)]
        · exact hr
    · rw [if_neg hc, inspect, Walk.range_eq_throw
        (accept_page_error hstop (Bool.eq_false_iff.mpr hc))]
      rfl

end AddressSpace

end Sandbox
