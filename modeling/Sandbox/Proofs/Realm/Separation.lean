import Sandbox.Proofs.Realm.Sharing
import Sandbox.Proofs.Space.Sight

/-! # Spaces keep to themselves

All spaces of a realm take their arrays from one allocator, which hands out again what it is
given back. A space that is not called on is out of reach of all other calls: it stays, and
whatever is asked about its pages has the same answer before and after them.
-/

namespace Sandbox

open AddressSpace Walk

variable {A : Architecture} {R R' : Realm A} {c : Call A} {t : AddressSpace A}

namespace Realm

/-- Whatever is done with all other spaces, a space stays and is seen as before. Seeing it
does nothing to any space. -/
theorem Leads.separated (h : Leads (Spares t.owner) R R') (hR : Reachable R)
    (hp : R'.memory.Placed A.codec) (ht : t ∈ R.spaces) :
    t ∈ R'.spaces ∧ t.AnswersAlike R.memory R'.memory ∧
    ∀ s : AddressSpace A, (∀ a, (s.lookup a).final R'.memory = R'.memory) ∧
      (∀ a, (s.lookupFirst a).final R'.memory = R'.memory) ∧
      ∀ a length, (s.isEmpty a length).final R'.memory = R'.memory := by
  have hp₀ := hp.of_before (h.before hR)
  obtain ⟨hmem, hsame⟩ := h.untouched hR hp ht
  exact ⟨hmem, answersAlike_of_leaves (hR.sound hp₀).intact ht hp₀
      ((h.reachable hR).sound hp).intact hmem hp fun y => hsame.leafAt_eq y,
    fun s => ⟨fun a => (s.leaves_lookup a).final_eq _,
      fun a => (s.leaves_lookupFirst a).final_eq _,
      fun a length => (s.leaves_isEmpty a length).final_eq _⟩⟩

theorem supply_drop (s : AddressSpace A) (R : Realm A) :
    ((Call.drop s).next R).memory.supply = R.memory.supply :=
  s.leaves_teardown.final_eq R.memory

def neighbour : AddressSpace .riscv64 :=
  ⟨⟨2⟩, ⟨0x1001000⟩, none, false⟩

/-- Two spaces that have mapped a page each. -/
def neighbourhood : Realm .riscv64 :=
  (single .riscv64 0x1000000).following [.create ⟨2⟩,
    .change (firstSpace .riscv64 0x1000000)
      (.map ⟨0x5000⟩ 0x1000 (.forUser .readWrite) ⟨0x80000000⟩),
    .change neighbour (.map ⟨0x5000⟩ 0x1000 (.forUser .readOnly) ⟨0x90000000⟩)]

theorem leads_neighbourhood :
    Leads (fun _ _ => True) (single .riscv64 0x1000000) neighbourhood :=
  Permits.leads (by decide +kernel)

def growth : List (Call .riscv64) :=
  [.create ⟨3⟩, .change (firstSpace .riscv64 0x1000000)
    (.map ⟨0x6000⟩ 0x1000 (.forUser .readWrite) ⟨0xA0000000⟩)]

/-- The first space is dropped in the end. The second one still has its page, and no other. -/
theorem separated_neighbourhood :
    let s := firstSpace .riscv64 0x1000000
    let m := ((Call.drop s).next (neighbourhood.following growth)).memory
    (neighbour.lookup ⟨0x5abc⟩).outcome m =
      .ok (some ⟨⟨0x5000⟩, ⟨0x90000000⟩, pageSize, .forUser .readOnly⟩) ∧
    (neighbour.lookupFirst ⟨0xFFFFFF8000000000⟩).outcome m = .ok none ∧
    (neighbour.isEmpty ⟨0⟩ 0x5000).outcome m = .ok true := by
  intro s m
  have hreach := leads_neighbourhood.reachable (reachable_single .riscv64 0x1000000)
  have hrun : Leads (Spares neighbour.owner) neighbourhood (neighbourhood.following growth) :=
    Permits.leads (by decide +kernel)
  have hall := leads_neighbourhood.trans (hrun.mono fun _ _ _ => trivial)
  have hplaced : m.Placed Architecture.riscv64.codec :=
    (hall.placed (by decide) (by decide +kernel)).of_supply (supply_drop s _)
  have hdrop := hrun.call (c := .drop s) (by decide +kernel) (by decide)
  obtain ⟨-, hsame, -⟩ := hdrop.separated hreach hplaced (by decide +kernel)
  have hpage : (neighbour.lookup ⟨0x5abc⟩).outcome neighbourhood.memory =
        .ok (some ⟨⟨0x5000⟩, ⟨0x90000000⟩, pageSize, .forUser .readOnly⟩) ∧
      (neighbour.lookupFirst ⟨0xFFFFFF8000000000⟩).outcome neighbourhood.memory = .ok none ∧
      (neighbour.isEmpty ⟨0⟩ 0x5000).outcome neighbourhood.memory = .ok true := by
    decide +kernel
  rwa [← hsame.lookup, ← hsame.lookupFirst, ← hsame.isEmpty] at hpage

end Realm

end Sandbox
