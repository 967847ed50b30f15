import Mathlib.Data.Set.Finite.Lemmas
import Mathlib.Data.Set.Finite.List
import Sandbox.Proofs.Realm.Sharing
import Sandbox.Proofs.Walk.Accounts

/-! # Balance

Dropping a space frees its arrays, each of them once, and no others. What the allocator handed
out and did not take back is live all along, so once all spaces are gone it has taken back as
many arrays as it has handed out.
-/

namespace Sandbox

open AddressSpace Walk

variable {A : Architecture} {R R' : Realm A} {S : List (AddressSpace A)} {s : AddressSpace A}
  {m m₀ : Memory} {c : Call A} {P : Realm A → Call A → Prop}

theorem Memory.liveCount_eq_zero (h : ∀ b, b ∉ m.live) : m.liveCount = 0 := by
  have hnil : m.live.toList = [] := by
    rw [List.eq_nil_iff_forall_not_mem]
    exact fun b hb => h b (Std.ExtTreeSet.mem_toList.mp hb)
  change m.live.size = 0
  rw [← Std.ExtTreeSet.length_toList, hnil, List.length_nil]

/-! ## All calls keep the accounts -/

open Sandbox.Action (Accounts)

theorem accounts_create (A : Architecture) (owner : OwnerId) :
    (AddressSpace.create A owner).Accounts A.codec := by
  have h := Accounts.closed A.codec
  unfold AddressSpace.create
  exact h.bind Accounts.allocate fun _ => h.bind (h.log _) fun _ => h.pure _

theorem accounts_createAbove (base : AddressSpace A) (start : VirtualAddress) (owner : OwnerId) :
    (base.createAbove start owner).Accounts A.codec := by
  have h := Accounts.closed A.codec
  unfold AddressSpace.createAbove
  exact h.bind (h.lift _) fun _ => h.bind Accounts.allocate fun _ =>
    h.bind (Accounts.edit fun m => Memory.sameBooks_fill _ m) fun _ =>
      h.bind (h.log _) fun _ => h.pure _

theorem accounts_change {α : Type} (s : AddressSpace A) (v : Visitor α) (start stop : Word)
    (r : α) : (s.change v start stop r).Accounts A.codec :=
  Accounts.range ⟨A.codec, v, true, stop⟩ s.root start r

theorem accounts_unmap (s : AddressSpace A) (a : VirtualAddress) (length : Word) :
    (s.unmap a length).Accounts A.codec := by
  have h := Accounts.closed A.codec
  exact h.bind (h.lift _) fun r => accounts_change s _ r.1 r.2 false

theorem accounts_run (s : AddressSpace A) (ch : Change) : (ch.run s).Accounts A.codec := by
  have h := Accounts.closed A.codec
  cases ch with
  | map a length o physical =>
    change (s.map a length o physical).Accounts A.codec
    unfold AddressSpace.map
    exact h.bind (h.lift _) fun r => Action.Closed.ite (T := fun _ act => act.Accounts A.codec)
      (fun _ => h.bind (h.lift _) fun _ => accounts_change s _ r.1 r.2 false)
      fun _ => accounts_unmap s a length
  | unmap a length => exact accounts_unmap s a length
  | protect a length o =>
    change (s.protect a length o).Accounts A.codec
    unfold AddressSpace.protect
    exact h.bind (h.lift _) fun r => Action.Closed.ite (T := fun _ act => act.Accounts A.codec)
      (fun _ => accounts_change s _ r.1 r.2 false) fun _ => accounts_unmap s a length

theorem accounts_teardown (s : AddressSpace A) : s.teardown.Accounts A.codec :=
  teardown_closed (Accounts.closed A.codec) s
    (fun start stop => accounts_change s _ start stop false)
    (fun _ => Accounts.edit fun m => Memory.sameBooks_fill (g := fun _ _ => 0) _ m)
    (Accounts.free s.root)

theorem Call.before (c : Call A) (R : Realm A) : R.memory.Before (c.next R).memory := by
  cases c with
  | create owner => exact ((accounts_create A owner).triple R.memory).before R.memory
  | createAbove base start owner =>
    exact ((accounts_createAbove base start owner).triple R.memory).before R.memory
  | change s ch => exact ((accounts_run s ch).triple R.memory).before R.memory
  | freeze s => exact .refl R.memory
  | drop s => exact ((accounts_teardown s).triple R.memory).before R.memory

namespace Realm

theorem Sound.accounted_next (h : Sound R) (c : Call A) (hp : (c.next R).memory.Placed A.codec) :
    Memory.Accounted R.memory (c.next R).memory := by
  have hb := h.intact.books
  cases c with
  | create owner => exact (accounts_create A owner).final hb hp
  | createAbove base start owner => exact (accounts_createAbove base start owner).final hb hp
  | change s ch => exact (accounts_run s ch).final hb hp
  | freeze s => exact .refl hb
  | drop s => exact (accounts_teardown s).final hb hp

theorem Leads.accounted (h : Leads P R R') (hR : Reachable R) (hp : R'.memory.Placed A.codec) :
    Memory.Accounted R.memory R'.memory := by
  induction h with
  | refl => exact .refl (hR.sound hp).intact.books
  | call h hc _ ih =>
    have hreach := h.reachable hR
    have hp' := hp.of_before (hc.step.before hreach.wellSplit)
    exact (ih hp').trans ((hreach.sound hp').accounted_next _ hp)

/-! ## Dropping spaces -/

/-- The space is gone with its arrays, and the other spaces are as they were. -/
structure TornDown (S : List (AddressSpace A)) (s : AddressSpace A) (m₀ m : Memory) : Prop where
  freed : ∃ freed, GivenBack s m₀ m freed
  allocations : m.allocations = m₀.allocations
  /-- Arrays of other spaces are not among those of this one, and stay where they are. -/
  kept : ∀ t ∈ S, t ≠ s → ∀ q b, t.Owns m₀ q b →
    (¬ ∃ q', s.Owns m₀ q' b) ∧ t.Owns m q b ∧ b ∈ m.live
  lookups : ∀ t ∈ S, t ≠ s → ∀ x, (t.lookup x).outcome m = (t.lookup x).outcome m₀

theorem Sound.tornDown (h : Sound R) (hp : R.memory.Placed A.codec) (hs : s ∈ R.spaces)
    (hun : Unshared R.spaces s) : s.teardown.outcome R.memory = .ok () ∧
      TornDown R.spaces s R.memory (s.teardown.final R.memory) := by
  obtain ⟨hout, hi, hsame, hfreed⟩ := h.teardown_spec hp hs hun
  have hsupply := s.leaves_teardown.final_eq R.memory
  refine ⟨hout, hfreed, (Prod.mk.inj hsupply).1, fun t ht hne q b ho => ⟨?_, ?_, ?_⟩,
    fun t ht hne x => ?_⟩
  · rintro ⟨q', ho'⟩
    exact hne (h.intact.unique t ht s hs q q' b ho ho').1
  · exact (hsame t ht hne).owns_iff.mpr ho
  · exact (h.live_teardown hp hs hun b).mpr ⟨t, ht, hne, q, ho⟩
  · rw [lookup_outcome hi (mem_spaces_drop.mpr ⟨ht, hne⟩) (hp.of_supply hsupply),
      lookup_outcome h.intact ht hp]
    exact answer_congr x fun _ => (hsame t ht hne).leafAt_eq _

theorem Sound.exists_unshared (h : Sound R) (hne : R.spaces ≠ []) :
    ∃ s ∈ R.spaces, Unshared R.spaces s := by
  obtain ⟨s, hs, hmax⟩ := Set.exists_max_image {s | s ∈ R.spaces} (fun s => s.owner.number)
    (List.finite_toSet R.spaces) (List.exists_mem_of_ne_nil R.spaces hne)
  refine ⟨s, hs, fun t ht u hu heq => ?_⟩
  obtain ⟨b, hb, hbu, hlt, -⟩ := h.intact.base t ht u hu
  obtain rfl := h.intact.owner_inj b hb s hs (hbu.trans heq)
  exact Nat.not_lt.mpr (hmax t ht) hlt

def IsDrop (_ : Realm A) (c : Call A) : Prop :=
  ∃ s, c = .drop s

/-- All spaces can be dropped, one after the other. -/
theorem Reachable.exists_drops (h : Reachable R) (hp : R.memory.Placed A.codec) :
    ∃ R', Leads IsDrop R R' ∧ R'.spaces = [] ∧ R'.memory.Placed A.codec := by
  induction hn : R.spaces.length using Nat.strongRecOn generalizing R with
  | _ n ih =>
    subst hn
    by_cases hnil : R.spaces = []
    · exact ⟨R, .refl, hnil, hp⟩
    · obtain ⟨s, hs, hun⟩ := (h.sound hp).exists_unshared hnil
      have hc : (Call.drop s).Allowed R := ⟨hs, hun⟩
      have hlt : ((Call.drop s).next R).spaces.length < R.spaces.length :=
        List.length_filter_lt_length_iff_exists.mpr ⟨s, hs, by simp⟩
      obtain ⟨R', hrun, hspaces, hp'⟩ := ih _ hlt (h.step hc.step)
        (hp.of_supply (s.leaves_teardown.final_eq R.memory)) rfl
      exact ⟨R', (Leads.call .refl hc ⟨s, rfl⟩).trans hrun, hspaces, hp'⟩

theorem Sound.liveCount_eq_zero (h : Sound R) (hnil : R.spaces = []) :
    R.memory.liveCount = 0 := by
  apply Memory.liveCount_eq_zero
  intro b hb
  obtain ⟨t, ht, -⟩ := (h.intact.live_iff b).mp hb
  rw [hnil] at ht
  cases ht

/-- Dropping a space returns and frees its arrays only, each of them once. When all spaces are
gone, and they can all be dropped, nothing is live and as much was freed as allocated. -/
theorem Leads.teardown_balances (h : Leads P ⟨m₀, []⟩ R) (hm : m₀.Pristine)
    (hcount : m₀.allocations = m₀.frees) (hp : R.memory.Placed A.codec) :
    (∀ s ∈ R.spaces, Unshared R.spaces s → s.teardown.outcome R.memory = .ok () ∧
      TornDown R.spaces s R.memory (s.teardown.final R.memory)) ∧
    (R.spaces = [] → R.memory.liveCount = 0 ∧ R.memory.allocations = R.memory.frees) ∧
    ∃ R', Leads IsDrop R R' ∧ R'.spaces = [] ∧ R'.memory.liveCount = 0 ∧
      R'.memory.allocations = R'.memory.frees := by
  have hstart : Reachable (A := A) ⟨m₀, []⟩ := .start hm
  have hreach := h.reachable hstart
  have hlive₀ : m₀.liveCount = 0 := by
    apply Memory.liveCount_eq_zero
    rw [hm.live]
    exact fun _ => Std.ExtTreeSet.not_mem_empty
  have hempty {R' : Realm A} (h' : Leads (fun _ _ => True) ⟨m₀, []⟩ R')
      (hp' : R'.memory.Placed A.codec) (hnil : R'.spaces = []) :
      R'.memory.liveCount = 0 ∧ R'.memory.allocations = R'.memory.frees := by
    have hzero := ((h'.reachable hstart).sound hp').liveCount_eq_zero hnil
    have hbalance := (h'.accounted hstart hp').balance
    dsimp only at hbalance
    exact ⟨hzero, by omega⟩
  have hall : Leads (fun _ _ => True) ⟨m₀, []⟩ R := h.mono fun _ _ _ => trivial
  refine ⟨fun s hs hun => (hreach.sound hp).tornDown hp hs hun, hempty hall hp, ?_⟩
  obtain ⟨R', hrun, hnil, hp'⟩ := hreach.exists_drops hp
  have hall' : Leads (fun _ _ => True) ⟨m₀, []⟩ R' :=
    hall.trans (hrun.mono fun _ _ _ => trivial)
  exact ⟨R', hrun, hnil, hempty hall' hp' hnil⟩

theorem leads_crowded :
    Leads (fun _ _ => True) ⟨.startingAt 0x1000000 (some 4), []⟩ crowded := by
  have hmade : (AddressSpace.create .riscv64 ⟨1⟩).outcome (.startingAt 0x1000000 (some 4)) =
      .ok (firstSpace .riscv64 0x1000000) := by decide +kernel
  have hcreate : (Call.create (A := .riscv64) ⟨1⟩).Allowed ⟨.startingAt 0x1000000 (some 4), []⟩ :=
    nofun
  have hfirst := Leads.call (P := fun _ _ => True) .refl hcreate trivial
  rw [Call.next, hmade] at hfirst
  exact hfirst.call (c := .change (firstSpace .riscv64 0x1000000)
    (.map ⟨0x5000⟩ 0x1000 (.forUser .readWrite) ⟨0x80000000⟩))
    ⟨List.mem_cons_self, unshared_single .riscv64 0x1000000⟩ trivial

/-- What a mapping attached that ran out of memory half way is freed with the rest. -/
theorem teardown_balances_crowded :
    let s := firstSpace .riscv64 0x1000000
    let halfDone := Call.change s (.map ⟨0x1ff000⟩ 0x2000 (.forUser .readWrite) ⟨0x90000000⟩)
    let m := (halfDone.next crowded).memory
    m.liveCount = 4 ∧ s.teardown.outcome m = .ok () ∧
      (s.teardown.final m).liveCount = 0 ∧ (s.teardown.final m).frees = 4 := by
  intro s halfDone m
  have hpristine : (Memory.startingAt 0x1000000 (some 4)).Pristine := ⟨rfl, rfl, rfl, rfl⟩
  have hun : Unshared [s] s := unshared_single .riscv64 0x1000000
  have hallowed : halfDone.Allowed crowded := ⟨List.mem_cons_self, hun⟩
  have hrun := leads_crowded.call hallowed trivial
  have hplaced : m.Placed Architecture.riscv64.codec :=
    placed_startingAt (hrun.before (.start hpristine)) (by decide) (by decide +kernel)
  have hcounts : m.liveCount = 4 ∧ m.allocations = 4 := by decide +kernel
  obtain ⟨hdrop, -, -⟩ := hrun.teardown_balances hpristine rfl hplaced
  obtain ⟨hout, htorn⟩ := hdrop s List.mem_cons_self hun
  have hdropped := hrun.call (c := .drop s) ⟨List.mem_cons_self, hun⟩ trivial
  have hplaced' : (s.teardown.final m).Placed Architecture.riscv64.codec :=
    hplaced.of_supply (s.leaves_teardown.final_eq m)
  obtain ⟨-, hgone, -⟩ := hdropped.teardown_balances hpristine rfl hplaced'
  have hnil : ((Call.drop s).next (halfDone.next crowded)).spaces = [] := by
    change [s].filter (· ≠ s) = []
    simp
  obtain ⟨hlive, hbalance⟩ := hgone hnil
  exact ⟨hcounts.1, hout, hlive, hbalance.symm.trans (htorn.allocations.trans hcounts.2)⟩

end Realm

end Sandbox
