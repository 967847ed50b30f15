import Sandbox.Proofs.Realm.Calls
import Sandbox.Proofs.Realm.Unmapping

/-! # Shared upper halves

A space that shares the upper half of another shows there what the other shows, and its own
calls never reach there: they are refused, and when it is dropped nothing but its own arrays
go. Below the split it starts empty, and nobody else's calls are seen in it.
-/

namespace Sandbox

open AddressSpace Walk

variable {A : Architecture} {R R' : Realm A} {U C : AddressSpace A} {s : AddressSpace A}
  {m : Memory} {a : VirtualAddress} {length start : Word} {u : SharedUpper}

namespace AddressSpace

/-! ## Calls that are refused -/

theorem mutableBounds_eq_error (hu : s.upper = some u)
    (hlt : u.start.toNat < a.word.toNat + length.toNat) :
    ∃ e, s.mutableBounds a length = .error e := by
  obtain ⟨start, stop, -, hm⟩ | ⟨e, he, -⟩ := s.mutableBounds_cases a length
  · have hle := hm.stop_le u hu
    have hstop := hm.stop_eq
    omega
  · exact ⟨e, he⟩

/-! ## Teardowns ask for no array -/

theorem leaves_teardown (s : AddressSpace A) : s.teardown.Leaves Memory.supply :=
  teardown_closed (Action.Leaves.closed Memory.supply) s
    (fun start stop => leaves_change rfl s start stop false)
    (fun _ => .update fun m => Memory.supply_fill (g := fun _ _ => 0) _ m)
    (Memory.leaves_free (fun _ _ => rfl) _)

end AddressSpace

theorem Born.answer_below {S : List (AddressSpace A)} {m' : Memory} (hb : Born S m s m')
    {x : VirtualAddress} (hx : x.isCanonical = true) (hu : s.upper = some u)
    (hlt : x.word.toNat < u.start.toNat) : s.answer m' x = .ok none := by
  have hbase := x.toNat_pageBase
  have hslot : s.OwnsSlot (Level.pgd.index x.pageBase.word) := by
    apply (hb.split.ownsSlot_iff (by rw [isCanonical_pageBase, hx])).mpr
    rintro u' hu'
    obtain rfl := Option.some.inj (hu.symm.trans hu')
    omega
  cases hstop : Word.add? x.pageBase.word pageSize with
  | none => rw [answer_last hstop]
  | some stop =>
    rw [answer_eq hstop, if_pos hx, hb.leafAt_own hslot, mapping?,
      if_neg (by rw [A.lawful.isValid_zero]; exact Bool.false_ne_true)]

namespace Realm

/-! ## A space and its base -/

/-- What a space that shares root slots from `start` on has to do with its base. -/
structure Shares (R : Realm A) (U C : AddressSpace A) (start : Word) : Prop where
  /-- From the split on both show the same. -/
  above : ∀ x : VirtualAddress, start.toNat ≤ x.word.toNat →
    (C.lookup x).outcome R.memory = (U.lookup x).outcome R.memory
  /-- Only its own calls change what the space shows. -/
  foreign : ∀ c : Call A, c.Allowed R → ¬ c.On C.owner → (c.next R).memory.Placed A.codec →
    ∀ x, (C.lookup x).outcome (c.next R).memory = (C.lookup x).outcome R.memory
  /-- Changes that reach above the split are aborted before anything happens. -/
  refused : ∀ ch : Change, start.toNat < ch.range.1.word.toNat + ch.range.2.toNat →
    ∃ e, (ch.run C).outcome R.memory = .error (.abort e) ∧ (ch.run C).final R.memory = R.memory
  teardown : Unshared R.spaces C → C.teardown.outcome R.memory = .ok ()
  /-- A teardown gives back the arrays of the space, and none else. -/
  live_iff : Unshared R.spaces C → ∀ b, b ∈ (C.teardown.final R.memory).live ↔
    b ∈ R.memory.live ∧ ¬ ∃ p, C.Owns R.memory p b
  /-- In particular, none that the base shows, whose words stay. -/
  base_live : Unshared R.spaces C → ∀ p b, p.length ≤ 3 → U.arrayAt R.memory p = some b →
    b ∈ (C.teardown.final R.memory).live
  base_words : Unshared R.spaces C → U.words (C.teardown.final R.memory) = U.words R.memory

namespace Sound

theorem base_ne (h : Sound R) (hU : U ∈ R.spaces) (hC : C ∈ R.spaces)
    (hu : C.upper = some ⟨U.owner, start⟩) : U ≠ C := by
  rintro rfl
  obtain ⟨b, hb, hbu, hlt, -⟩ := h.intact.base U hC _ hu
  rw [h.intact.owner_inj b hb U hU hbu] at hlt
  exact Nat.lt_irrefl _ hlt

theorem leafAt_shared (h : Sound R) (hU : U ∈ R.spaces) (hC : C ∈ R.spaces)
    (hu : C.upper = some ⟨U.owner, start⟩) {y : Word} (hy : Canonical.isCanonical y = true)
    (hle : start.toNat ≤ y.toNat) : C.leafAt R.memory y = U.leafAt R.memory y := by
  obtain ⟨b, hb, hbu, -, hcopy⟩ := h.intact.base C hC _ hu
  obtain rfl := h.intact.owner_inj b hb U hU hbu
  apply leafAt_congr_root (hcopy _ _)
  rw [(h.intact.split C hC).ownsSlot_iff hy]
  intro hlt
  exact Nat.not_lt.mpr hle (hlt _ hu)

theorem teardown_spec (h : Sound R) (hp : R.memory.Placed A.codec) (hC : C ∈ R.spaces)
    (hun : Unshared R.spaces C) : C.teardown.outcome R.memory = .ok () ∧
      Intact (R.spaces.filter (· ≠ C)) (C.teardown.final R.memory) ∧
      (∀ t ∈ R.spaces, t ≠ C → t.Untouched R.memory (C.teardown.final R.memory)) ∧
      ∃ freed, GivenBack C R.memory (C.teardown.final R.memory) freed := by
  have htriple := teardown_triple hC (h.intact.split C hC) hun (fun _ => mem_spaces_drop) R.memory
  obtain ⟨⟨⟩, hout, hi, hsame, hfreed⟩ :=
    htriple.returns C.leaves_teardown ⟨rfl, h.intact, h.last C hC⟩ hp
  exact ⟨hout, hi, fun t ht hne => hsame t (mem_spaces_drop.mpr ⟨ht, hne⟩), hfreed⟩

theorem live_teardown (h : Sound R) (hp : R.memory.Placed A.codec) (hC : C ∈ R.spaces)
    (hun : Unshared R.spaces C) (b : PhysicalAddress) :
    b ∈ (C.teardown.final R.memory).live ↔ ∃ t ∈ R.spaces, t ≠ C ∧ ∃ p, t.Owns R.memory p b := by
  obtain ⟨-, hi, hsame, -⟩ := h.teardown_spec hp hC hun
  rw [hi.live_iff]
  constructor
  · rintro ⟨t, ht, p, ho⟩
    obtain ⟨ht, hne⟩ := mem_spaces_drop.mp ht
    exact ⟨t, ht, hne, p, (hsame t ht hne).owns_iff.mp ho⟩
  · rintro ⟨t, ht, hne, p, ho⟩
    exact ⟨t, mem_spaces_drop.mpr ⟨ht, hne⟩, p, (hsame t ht hne).owns_iff.mpr ho⟩

theorem shares (h : Sound R) (hp : R.memory.Placed A.codec) (hU : U ∈ R.spaces)
    (hC : C ∈ R.spaces) (hu : C.upper = some ⟨U.owner, start⟩) : R.Shares U C start where
  above x hle := by
    have hbase := x.toNat_pageBase
    have haligned := (h.intact.split C hC _ hu).1
    rw [lookup_outcome h.intact hC hp, lookup_outcome h.intact hU hp]
    cases hstop : Word.add? x.pageBase.word pageSize with
    | none => rw [answer_last hstop, answer_last hstop]
    | some stop =>
      rw [answer_eq hstop, answer_eq hstop]
      by_cases hx : x.isCanonical = true
      · rw [h.leafAt_shared hU hC hu (by rw [isCanonical_pageBase, hx])
          (by dsimp only at haligned; omega)]
      · rw [if_neg hx, if_neg hx]
  foreign c hc hn hend x := by
    obtain ⟨hmem, hsame⟩ := h.untouched hc hend hC hn
    have hi' := (hc.step.sound h hend).intact
    rw [lookup_outcome hi' hmem hend, lookup_outcome h.intact hC hp]
    exact answer_congr x fun _ => hsame.leafAt_eq _
  refused ch hlt := by
    obtain ⟨e, he⟩ := mutableBounds_eq_error hu hlt
    rw [ch.run_eq_throw he]
    exact ⟨e, rfl, rfl⟩
  teardown hun := (h.teardown_spec hp hC hun).1
  live_iff hun b := by
    rw [h.live_teardown hp hC hun, h.intact.live_iff]
    constructor
    · rintro ⟨t, ht, hne, p, ho⟩
      exact ⟨⟨t, ht, p, ho⟩, fun ⟨q, hq⟩ => hne (h.intact.unique t ht C hC p q b ho hq).1⟩
    · rintro ⟨⟨t, ht, p, ho⟩, hn⟩
      refine ⟨t, ht, ?_, p, ho⟩
      rintro rfl
      exact hn ⟨p, ho⟩
  base_live hun p b hlen hb := by
    obtain ⟨-, hi, hsame, -⟩ := h.teardown_spec hp hC hun
    have hne := h.base_ne hU hC hu
    apply hi.mem_live_of_arrayAt (mem_spaces_drop.mpr ⟨hU, hne⟩) hlen
    rw [(hsame U hU hne).arrayAt_eq hlen, hb]
  base_words hun := by
    obtain ⟨-, hi, hsame, -⟩ := h.teardown_spec hp hC hun
    have hne := h.base_ne hU hC hu
    exact (hsame U hU hne).words_eq h.intact hU hi (mem_spaces_drop.mpr ⟨hU, hne⟩)

end Sound

/-! ## Runs -/

theorem not_on_of_shared {c : Call A} (hc : c.Allowed R) (hC : C ∈ R.spaces)
    (hu : C.upper = some u) : ¬ c.On u.owner := by
  intro hon
  cases c with
  | create => exact hon
  | createAbove => exact hon
  | change s ch => exact hc.2 C hC u hu hon.symm
  | freeze s => exact hc.2 C hC u hu hon.symm
  | drop s => exact hc.2 C hC u hu hon.symm

/-- As long as a space is not dropped, its base shows what it showed. -/
theorem Leads.base_untouched (h : Leads (fun _ c => ¬ c.Drops C.owner) R R') (hR : Reachable R)
    (hp : R'.memory.Placed A.codec) (hU : U ∈ R.spaces) (hC : C ∈ R.spaces)
    (hu : C.upper = some ⟨U.owner, start⟩) : U ∈ R'.spaces ∧ U.Untouched R.memory R'.memory ∧
      ∃ f : Bool, { C with frozen := f } ∈ R'.spaces := by
  induction h with
  | refl => exact ⟨hU, .refl U R.memory, C.frozen, hC⟩
  | @call R' c h hc hd ih =>
    have hreach := h.reachable hR
    have hp' := hp.of_before (hc.step.before hreach.wellSplit)
    obtain ⟨hU', hsame, f, hC'⟩ := ih hp'
    obtain ⟨hmem, hnext⟩ := (hreach.sound hp').untouched hc hp hU' (not_on_of_shared hc hC' hu)
    exact ⟨hmem, hsame.trans hnext, exists_mem_next hc hd hC'⟩

theorem Leads.others_untouched {owner : OwnerId}
    (h : Leads (fun _ c => c.On owner ∧ ¬ c.Drops owner) R R') (hR : Reachable R)
    (hp : R'.memory.Placed A.codec) :
    (∀ t ∈ R.spaces, t.owner ≠ owner → t ∈ R'.spaces ∧ t.Untouched R.memory R'.memory) ∧
      ∀ t ∈ R'.spaces, t.owner ≠ owner → t ∈ R.spaces := by
  constructor
  · intro t ht hne
    have hspares : Leads (Spares t.owner) R R' :=
      h.mono fun _ c hc hon => hne (Call.owner_unique hon hc.1)
    exact hspares.untouched hR hp ht
  · clear hp
    induction h with
    | refl => exact fun t ht _ => ht
    | call h hc hon ih => exact fun t ht hne => ih t (mem_of_mem_next hon.1 ht hne) hne

/-- After calls on one space and its teardown, what is live are the arrays that the other
spaces had before. -/
theorem Leads.live_teardown (h : Leads (fun _ c => c.On C.owner ∧ ¬ c.Drops C.owner) R R')
    (hR : Reachable R) (hp : R'.memory.Placed A.codec) (hC : C ∈ R'.spaces)
    (hun : Unshared R'.spaces C) (b : PhysicalAddress) :
    b ∈ (C.teardown.final R'.memory).live ↔
      ∃ t ∈ R.spaces, t.owner ≠ C.owner ∧ ∃ p, t.Owns R.memory p b := by
  obtain ⟨hkeep, hold⟩ := h.others_untouched hR hp
  have hsound := (h.reachable hR).sound hp
  rw [hsound.live_teardown hp hC hun]
  constructor
  · rintro ⟨t, ht, hne, p, ho⟩
    have howner : t.owner ≠ C.owner := fun he => hne (hsound.intact.owner_inj t ht C hC he)
    have ht' := hold t ht howner
    exact ⟨t, ht', howner, p, (hkeep t ht' howner).2.owns_iff.mp ho⟩
  · rintro ⟨t, ht, howner, p, ho⟩
    obtain ⟨ht', hsame⟩ := hkeep t ht howner
    exact ⟨t, ht', fun he => howner (congrArg owner he), p, hsame.owns_iff.mpr ho⟩

/-- From any space, and from any root slot on, a space can share what is above, as long as
there is room for a root. It starts empty below. Whatever happens until it is dropped, it
shows what its base shows above, its calls are refused there, and the words of its base stay.
Its teardown gives back its own arrays, so that if only its own calls were made, all is live
that was live before. -/
theorem Reachable.shared_upper (h : Reachable R) (hU : U ∈ R.spaces) (start : VirtualAddress)
    {owner : OwnerId} (hnew : ∀ t ∈ R.spaces, t.owner.number < owner.number)
    (haligned : start.word.toNat % 2 ^ 39 = 0) (hcanonical : start.isCanonical = true)
    (hroom : R.memory.limitReached = false)
    (hp : ((U.createAbove start owner).final R.memory).Placed A.codec) :
    ∃ C, (U.createAbove start owner).outcome R.memory = .ok C ∧ C.owner = owner ∧
      (∀ x : VirtualAddress, x.isCanonical = true → x.word.toNat < start.word.toNat →
        (C.lookup x).outcome ((U.createAbove start owner).final R.memory) = .ok none) ∧
      ∀ R', Leads (fun _ c => ¬ c.Drops owner)
          ⟨(U.createAbove start owner).final R.memory, C :: R.spaces⟩ R' →
        R'.memory.Placed A.codec →
        U ∈ R'.spaces ∧ U.Untouched R.memory R'.memory ∧ U.words R'.memory = U.words R.memory ∧
        ∃ f : Bool, { C with frozen := f } ∈ R'.spaces ∧
          R'.Shares U { C with frozen := f } start.word ∧
          (Leads (fun _ c => c.On owner ∧ ¬ c.Drops owner)
              ⟨(U.createAbove start owner).final R.memory, C :: R.spaces⟩ R' →
            Unshared R'.spaces { C with frozen := f } →
            ((({ C with frozen := f } : AddressSpace A).teardown).final R'.memory).live =
              R.memory.live) := by
  obtain ⟨C, hC, hu, rfl⟩ : ∃ C, (U.createAbove start owner).outcome R.memory = .ok C ∧
      C.upper = some ⟨U.owner, start.word⟩ ∧ C.owner = owner :=
    ⟨_, createAbove_returns owner haligned hcanonical hroom, rfl, rfl⟩
  have hstep := Step.createAbove hU hnew hC
  have hi := (h.sound (hp.of_before (hstep.before h.wellSplit))).intact
  obtain ⟨-, hborn⟩ := (createAbove_triple hU hnew start R.memory).of_ok ⟨rfl, hi⟩ hp hC
  refine ⟨C, hC, rfl, fun x hx hlt => ?_, fun R' hrun hp' => ?_⟩
  · rw [lookup_outcome (hborn.intact hi) List.mem_cons_self hp]
    exact hborn.answer_below hx hu hlt
  · obtain ⟨hU', hsame, f, hC'⟩ := hrun.base_untouched (h.step hstep) hp'
      (List.mem_cons_of_mem _ hU) List.mem_cons_self hu
    have hsound := (hrun.reachable (h.step hstep)).sound hp'
    have hall := (hborn.untouched hi hU).trans hsame
    refine ⟨hU', hall, hall.words_eq hi hU hsound.intact hU', f, hC',
      hsound.shares hp' hU' hC' hu, fun hown hun => ?_⟩
    ext b
    rw [hown.live_teardown (C := { C with frozen := f }) (h.step hstep) hp' hC' hun, hi.live_iff]
    constructor
    · rintro ⟨t, ht, howner, p, ho⟩
      rcases List.mem_cons.mp ht with rfl | ht
      · exact absurd rfl howner
      · exact ⟨t, ht, p, (hborn.untouched hi ht).owns_iff.mp ho⟩
    · rintro ⟨t, ht, p, ho⟩
      refine ⟨t, List.mem_cons_of_mem _ ht, fun he => ?_, p, (hborn.untouched hi ht).owns_iff.mpr ho⟩
      exact absurd (hnew t ht) (by rw [he]; exact Nat.lt_irrefl _)

def mapKernelPage : Call .riscv64 :=
  .change (firstSpace .riscv64 0x1000000)
    (.map ⟨upperBottom⟩ 0x1000 (.forKernel .readWrite) ⟨0x80000000⟩)

/-- A space that shares the upper half of the first one. -/
def secondSpace : AddressSpace .riscv64 :=
  ⟨⟨2⟩, ⟨0x1004000⟩, some ⟨⟨1⟩, upperBottom⟩, false⟩

def mapUserPage : Call .riscv64 :=
  .change secondSpace (.map ⟨0x5000⟩ 0x1000 (.forUser .readWrite) ⟨0x90000000⟩)

/-- The second space has mapped a page, and shows what the first one shows in the upper half.
Its teardown leaves live what was live before it was made. -/
theorem shared_upper_second :
    let R := mapKernelPage.next (single .riscv64 0x1000000)
    let m := ((firstSpace .riscv64 0x1000000).createAbove ⟨upperBottom⟩ ⟨2⟩).final R.memory
    let R' := mapUserPage.next ⟨m, secondSpace :: R.spaces⟩
    (secondSpace.lookup ⟨0x5abc⟩).outcome m = .ok none ∧
    (secondSpace.lookup ⟨0xFFFF800000000abc⟩).outcome R'.memory =
      ((firstSpace .riscv64 0x1000000).lookup ⟨0xFFFF800000000abc⟩).outcome R'.memory ∧
    (secondSpace.teardown.final R'.memory).live = R.memory.live := by
  intro R m
  have hm : ((firstSpace .riscv64 0x1000000).createAbove ⟨upperBottom⟩ ⟨2⟩).final R.memory = m := rfl
  clear_value m
  intro R'
  have hfirst : mapKernelPage.Allowed (single .riscv64 0x1000000) :=
    ⟨List.mem_cons_self, unshared_single .riscv64 0x1000000⟩
  have hreach : Reachable R := .step (reachable_single .riscv64 0x1000000) hfirst.step
  have hmem : firstSpace .riscv64 0x1000000 ∈ R.spaces := List.mem_cons_self
  have hnew : ∀ t ∈ R.spaces, t.owner.number < (⟨2⟩ : OwnerId).number := by
    intro t ht
    obtain rfl := List.mem_singleton.mp ht
    decide
  have hsecond : ((firstSpace .riscv64 0x1000000).createAbove ⟨upperBottom⟩ ⟨2⟩).outcome
      R.memory = .ok secondSpace := by
    decide +kernel
  have hstep : Step R ⟨m, secondSpace :: R.spaces⟩ := hm ▸ .createAbove hmem hnew hsecond
  have hun : Unshared (secondSpace :: R.spaces) secondSpace := by
    intro t ht u hu
    rcases List.mem_cons.mp ht with rfl | ht
    · obtain rfl := Option.some.inj hu
      decide
    · obtain rfl := List.mem_singleton.mp ht
      cases hu
  have hthird : mapUserPage.Allowed ⟨m, secondSpace :: R.spaces⟩ := ⟨List.mem_cons_self, hun⟩
  have hbefore₀ := (before_single .riscv64 0x1000000).trans
    (hfirst.step.before (reachable_single .riscv64 0x1000000).wellSplit)
  have hbefore := hbefore₀.trans (hstep.before hreach.wellSplit)
  have hbefore' := hbefore.trans (hthird.step.before (hreach.step hstep).wellSplit)
  have hfresh : m.fresh ≤ 5 ∧ R'.memory.fresh ≤ 8 := by
    subst hm
    decide +kernel
  have hshared := hreach.shared_upper hmem ⟨upperBottom⟩ hnew (by decide) (by decide)
    (by decide +kernel)
  rw [hm] at hshared
  obtain ⟨C, hC, -, hbelow, hrun⟩ := hshared (placed_startingAt hbefore (by decide) (by
    have := hfresh.1
    change 0x1000000 + 4096 * m.fresh ≤ 2 ^ 48
    omega))
  obtain rfl := Except.ok.inj (hsecond.symm.trans hC)
  have hleads : Leads (fun _ c => c.On ⟨2⟩ ∧ ¬ c.Drops ⟨2⟩) ⟨m, secondSpace :: R.spaces⟩ R' :=
    .call .refl hthird ⟨rfl, id⟩
  obtain ⟨-, -, -, f, hC', hshares, hlive⟩ := hrun R' (hleads.mono fun _ _ h => h.2)
    (placed_startingAt hbefore' (by decide) (by
      have := hfresh.2
      change 0x1000000 + 4096 * R'.memory.fresh ≤ 2 ^ 48
      omega))
  obtain rfl : f = false := by
    rcases List.mem_cons.mp hC' with heq | hC'
    · exact congrArg AddressSpace.frozen heq
    · exact absurd (List.mem_singleton.mp hC') (by cases f <;> decide)
  exact ⟨hbelow ⟨0x5abc⟩ (by decide) (by decide),
    hshares.above ⟨0xFFFF800000000abc⟩ (by decide), hlive hleads hun⟩

end Realm

end Sandbox
