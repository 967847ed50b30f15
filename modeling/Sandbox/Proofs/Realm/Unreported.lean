import Sandbox.Proofs.Realm.Acceptance
import Sandbox.Proofs.Realm.Reports

/-! # Changes that go unreported

A mapping that returns tells its caller whether it has overwritten a page, so that the caller may
flush what is cached of it. A mapping that stops on its way tells nothing of the kind, and yet the
pages before the one at which it stops are mapped anew by then.
-/

namespace Sandbox

open AddressSpace Walk

variable {A : Architecture} {S : List (AddressSpace A)} {s : AddressSpace A} {m m₀ : Memory}
  {a : VirtualAddress} {length : Word} {o : MapOptions} {physical : PhysicalAddress}
  {k : Nat} {e : Stop}

namespace AddressSpace

def Overwrites (s : AddressSpace A) (m m' : Memory) : Prop :=
  ∃ x t, (s.lookup x).outcome m = .ok (some t) ∧ (s.lookup x).outcome m' ≠ .ok (some t)

/-- The page number `i` of a range is mapped, but not to where it is to be mapped, or with other
options. -/
def Clashes (s : AddressSpace A) (a : VirtualAddress) (o : MapOptions) (physical : PhysicalAddress)
    (m : Memory) (i : Nat) : Prop :=
  ∃ x t, x.pageBase = pageAt a i ∧ (s.lookup x).outcome m = .ok (some t) ∧
    t ≠ pageMapping a o physical i

theorem Advanced.refl (s : AddressSpace A) (a : VirtualAddress) (o : MapOptions)
    (physical : PhysicalAddress) (m : Memory) : Advanced s a o physical 0 m m :=
  ⟨nofun, fun _ _ => rfl⟩

theorem Advanced.overwrites_iff (h : Advanced s a o physical k m₀ m) :
    Overwrites s m₀ m ↔ ∃ i < k, Clashes s a o physical m₀ i := by
  constructor
  · rintro ⟨x, t, hold, hnew⟩
    by_contra hno
    apply hnew
    by_cases hx : ∀ i < k, x.pageBase ≠ pageAt a i
    · rw [h.rest x hx, hold]
    · obtain ⟨i, hik, hxi⟩ : ∃ i < k, x.pageBase = pageAt a i := by simpa using hx
      have ht : t = pageMapping a o physical i := by
        by_contra hne
        exact hno ⟨i, hik, x, t, hxi, hold, hne⟩
      rw [h.mapped i hik x hxi, ht]
  · rintro ⟨i, hik, x, t, hxi, hold, hne⟩
    refine ⟨x, t, hold, fun hnew => hne ?_⟩
    rw [h.mapped i hik x hxi] at hnew
    simpa using hnew.symm

/-- Where a mapping stops, the pages before are mapped as was asked, and all others are as they
were. -/
theorem map_stops (hi : Intact S m) (hs : s ∈ S) (hun : Unshared S s)
    (hp : ((s.map a length o physical).final m).Placed A.codec)
    (he : (s.map a length o physical).outcome m = .error e) :
    ∃ k ≤ pageCount length, Advanced s a o physical k m ((s.map a length o physical).final m) := by
  have hp₀ := (Change.map a length o physical).placed hs (hi.split s hs) hun hp
  by_cases hacc : s.Accepts a length
  · obtain ⟨stop, hb, hm, ha⟩ := hacc.exists_stop
    by_cases ho : o.access.any = true
    · rcases map_cases hb ho physical with hthrow | hwalk
      · rw [hthrow]
        exact ⟨0, Nat.zero_le _, .refl s a o physical m⟩
      · have hedit := (hi.split s hs).editable hun ha hm.stop_le
        have htriple := extend_triple hs hedit ha (MapOptions.any_normalized ho) physical m
        rw [hwalk] at he hp ⊢
        obtain ⟨hi', -, ⟨x, hx, hmapped, -⟩, -⟩ := htriple.of_error ⟨rfl, hi⟩ hp he
        obtain ⟨k, hk, hxk⟩ := exists_pageAt (x := ⟨x⟩) hm.stop_eq ha hx
        obtain rfl : x = (pageAt a k).word := congrArg VirtualAddress.word hxk
        exact ⟨k, hk.le, hmapped.advanced hi hi' hs hp₀ hp hm.stop_eq ha hk⟩
    · -- Without access this is an unmapping, which does not stop.
      rw [map_eq_unmap s a length (Bool.eq_false_iff.mpr ho)] at he
      obtain ⟨changed, hok⟩ := (unmap_amends hi hs hun hp₀ hacc).returns
      cases he.symm.trans hok
  · obtain ⟨b, hthrow⟩ := (Change.map a length o physical).aborts hacc
    replace hthrow : s.map a length o physical = throw (.abort b) := hthrow
    rw [hthrow]
    exact ⟨0, Nat.zero_le _, .refl s a o physical m⟩

theorem map_outside {changed : Bool} (hi : Intact S m) (hs : s ∈ S) (hun : Unshared S s)
    (hp : ((s.map a length o physical).final m).Placed A.codec)
    (hok : (s.map a length o physical).outcome m = .ok changed) {x : VirtualAddress}
    (hx : ¬ InPages a length x) : (s.lookup x).outcome ((s.map a length o physical).final m) =
      (s.lookup x).outcome m := by
  have hp₀ := (Change.map a length o physical).placed hs (hi.split s hs) hun hp
  by_cases ho : o.access.any = true
  · have hm := (map_triple hs (hi.split s hs) hun ho physical m).of_ok ⟨rfl, hi⟩ hp hok
    rw [lookup_outcome hm.intact hs hp, lookup_outcome hi hs hp₀, hm.answer_outside hx]
  · have hacc := (Change.map a length o physical).accepts hok
    rw [map_eq_unmap s a length (Bool.eq_false_iff.mpr ho)]
    exact (unmap_amends hi hs hun hp₀ hacc).outside x hx

end AddressSpace

namespace Realm

variable {R : Realm A}

/-- A mapping that returns reports exactly whether it has overwritten a page. One that stops has
overwritten those of the pages before that were mapped otherwise. So a page that is overwritten
is reported unless the mapping stops after it. -/
theorem Reachable.map_overwrites (h : Reachable R) (hs : s ∈ R.spaces) (hun : Unshared R.spaces s)
    (hp : ((s.map a length o physical).final R.memory).Placed A.codec) :
    let call := s.map a length o physical
    let overwrites := Overwrites s R.memory (call.final R.memory)
    (∀ changed, call.outcome R.memory = .ok changed → (changed = true ↔ overwrites)) ∧
    (∀ e, call.outcome R.memory = .error e → ∃ k ≤ pageCount length,
      Advanced s a o physical k R.memory (call.final R.memory) ∧
        (overwrites ↔ ∃ i < k, Clashes s a o physical R.memory i)) ∧
    ((overwrites → call.outcome R.memory = .ok true) ↔ ∀ e k,
      call.outcome R.memory = .error e →
        Advanced s a o physical k R.memory (call.final R.memory) →
          ∀ i < k, ¬ Clashes s a o physical R.memory i) := by
  intro call overwrites
  have hi := (h.sound (hp.of_before ((Change.run_triple hs (h.wellSplit s hs) hun
    (.map a length o physical) R.memory).before _))).intact
  have hreports : ∀ changed, call.outcome R.memory = .ok changed →
      (changed = true ↔ overwrites) := by
    intro changed hok
    refine ((Change.map a length o physical).reports hi hs hun hp hok).trans ?_
    constructor
    · rintro ⟨x, t, -, hold, hnew⟩
      exact ⟨x, t, hold, hnew⟩
    · rintro ⟨x, t, hold, hnew⟩
      refine ⟨x, t, ?_, hold, hnew⟩
      by_contra hx
      exact hnew ((map_outside hi hs hun hp hok hx).trans hold)
  have hstops : ∀ e, call.outcome R.memory = .error e → ∃ k ≤ pageCount length,
      Advanced s a o physical k R.memory (call.final R.memory) ∧
        (overwrites ↔ ∃ i < k, Clashes s a o physical R.memory i) := by
    intro e he
    obtain ⟨k, hk, hadvanced⟩ := map_stops hi hs hun hp he
    exact ⟨k, hk, hadvanced, hadvanced.overwrites_iff⟩
  refine ⟨hreports, hstops, fun hall e k he hadvanced i hik hclash => ?_, fun hno hover => ?_⟩
  · cases he.symm.trans (hall (hadvanced.overwrites_iff.mpr ⟨i, hik, hclash⟩))
  · cases hout : call.outcome R.memory with
    | ok changed => rw [(hreports changed hout).mpr hover]
    | error e =>
      obtain ⟨k, -, hadvanced, hiff⟩ := hstops e hout
      obtain ⟨i, hik, hclash⟩ := hiff.mp hover
      exact absurd hclash (hno e k hout hadvanced i hik)

/-- No array is left, and the last page of a block of 2 MiB is mapped. -/
def cornered : Realm .riscv64 :=
  ⟨((firstSpace .riscv64 0x1000000).map ⟨0x1ff000⟩ 0x1000 (.forUser .readWrite)
    ⟨0x80000000⟩).final crowded.memory, crowded.spaces⟩

theorem reachable_cornered : Reachable cornered ∧
    (Memory.startingAt 0x1000000 (some 4)).Before cornered.memory := by
  obtain ⟨hreach, hbefore⟩ := reachable_crowded
  have hstep := Step.change (R := crowded) List.mem_cons_self (unshared_single .riscv64 0x1000000)
    (.map ⟨0x1ff000⟩ 0x1000 (.forUser .readWrite) ⟨0x80000000⟩)
  exact ⟨hreach.step hstep, hbefore.trans (hstep.before hreach.wellSplit)⟩

/-- The page is moved to another frame, and the caller is told. -/
theorem map_overwrites_cornered :
    let s := firstSpace .riscv64 0x1000000
    let call := s.map ⟨0x1ff000⟩ 0x1000 (.forUser .readWrite) ⟨0x90000000⟩
    call.outcome cornered.memory = .ok true ∧
      Overwrites s cornered.memory (call.final cornered.memory) := by
  intro s call
  have hok : call.outcome cornered.memory = .ok true := by decide +kernel
  obtain ⟨hreach, hbefore⟩ := reachable_cornered
  have hun : Unshared cornered.spaces s := unshared_single .riscv64 0x1000000
  have hstep := Step.change (R := cornered) List.mem_cons_self hun
    (.map ⟨0x1ff000⟩ 0x1000 (.forUser .readWrite) ⟨0x90000000⟩)
  have hbefore' := hbefore.trans (hstep.before hreach.wellSplit)
  dsimp only at hbefore'
  obtain ⟨hreports, -⟩ := hreach.map_overwrites List.mem_cons_self hun
    (placed_startingAt hbefore' (by decide) (by decide +kernel))
  exact ⟨hok, (hreports true hok).mp rfl⟩

/-- The page is moved as the first of two. There is no array for the second one, and the caller is
not told that the first one was moved. -/
theorem unreported_cornered :
    let s := firstSpace .riscv64 0x1000000
    let call := s.map ⟨0x1ff000⟩ 0x2000 (.forUser .readWrite) ⟨0x90000000⟩
    Reachable cornered ∧ s ∈ cornered.spaces ∧ Unshared cornered.spaces s ∧
    (s.lookup ⟨0x1ff000⟩).outcome cornered.memory =
      .ok (some ⟨⟨0x1ff000⟩, ⟨0x80000000⟩, pageSize, .forUser .readWrite⟩) ∧
    (s.lookup ⟨0x1ff000⟩).outcome (call.final cornered.memory) =
      .ok (some ⟨⟨0x1ff000⟩, ⟨0x90000000⟩, pageSize, .forUser .readWrite⟩) ∧
    call.outcome cornered.memory = .error (.refusal .outOfMemory) ∧
    ¬ (Overwrites s cornered.memory (call.final cornered.memory) →
      call.outcome cornered.memory = .ok true) := by
  intro s call
  have hbefore : (s.lookup ⟨0x1ff000⟩).outcome cornered.memory =
      .ok (some ⟨⟨0x1ff000⟩, ⟨0x80000000⟩, pageSize, .forUser .readWrite⟩) := by decide +kernel
  have hafter : (s.lookup ⟨0x1ff000⟩).outcome (call.final cornered.memory) =
      .ok (some ⟨⟨0x1ff000⟩, ⟨0x90000000⟩, pageSize, .forUser .readWrite⟩) := by decide +kernel
  have hout : call.outcome cornered.memory = .error (.refusal .outOfMemory) := by decide +kernel
  refine ⟨reachable_cornered.1, List.mem_cons_self, unshared_single .riscv64 0x1000000, hbefore,
    hafter, hout, fun hall => ?_⟩
  have hover : Overwrites s cornered.memory (call.final cornered.memory) :=
    ⟨⟨0x1ff000⟩, _, hbefore, by rw [hafter]; decide⟩
  cases hout.symm.trans (hall hover)

end Realm

end Sandbox
