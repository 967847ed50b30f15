import Sandbox.Proofs.Realm.Unmapping
import Sandbox.Proofs.Walk.Cursor
import Sandbox.Proofs.Walk.Visits

/-! # Walks in step and in order

What a walk over a tree does is settled before it starts: it visits the pages of its range in
ascending order, with the entries that they have then. That it does not lose its way among the
arrays is due to its cursor, which keeps in step with the slots at every level.
-/

namespace Sandbox

open AddressSpace

namespace Walk

variable {α : Type} {A : Architecture} {S : List (AddressSpace A)} {s : AddressSpace A}
  {plan : Plan α} {start : Word} {m : Memory}

/-- A walk keeps its cursor in step and makes its visits in order. -/
structure Orderly (s : AddressSpace A) (plan : Plan α) (start : Word) (r : α) (m : Memory) :
    Prop where
  /-- After each slot of each array the cursor is in step, no addition to it leaves the range of a
  word, and no allocating visit leaves its page unmapped. Whatever a walk would do otherwise, it
  is the same walk. -/
  in_step : ∀ alarm, range plan s.root start r = rangeAudited plan alarm s.root start r
  /-- All pages of the range are visited if the walk allocates, and those that are mapped before it
  if not, each with the entry that is found at its own four indices. -/
  mem_visits : ∀ x w, (x, w) ∈ plan.visits (s.leafAt m) start ↔
    Inside start plan.stop x ∧ w = s.leafAt m x ∧
      (plan.visitor.allocates = true ∨ A.codec.isValid w = true)
  ascending : (plan.visits (s.leafAt m) start).Pairwise (·.1 < ·.1)
  /-- The walk ends as its visits do, or for want of an array for one of them. -/
  ends : let act := range plan s.root start r
    plan.visitor.sweep (plan.visits (s.leafAt m) start) r (s.leafAt m) =
        (act.outcome m, s.leafAt (act.final m)) ∨
      act.outcome m = .error (.refusal .outOfMemory) ∧ plan.visitor.allocates = true ∧
        (act.final m).limitReached = true ∧
        plan.visitor.CutOff (plan.visits (s.leafAt m) start) r (s.leafAt m)
          (s.leafAt (act.final m))

theorem fills_map {o : MapOptions} (ho : o.access.any = true) (physical : PhysicalAddress) :
    (Visitor.map A.codec start physical o).Fills A.codec := by
  intro _ x w r u hu _
  obtain ⟨leaf, hleaf, rfl⟩ := map_visit ho hu
  exact hleaf.isValid A.lawful

/-- Every walk over an accepted range of an intact tree is orderly, if its visitor leaves those
pages mapped for which it has arrays allocated. -/
theorem Scope.orderly (hs : Scope S s plan start) (hf : plan.visitor.Fills plan.codec)
    (hi : Intact S m) (r : α) (hp : ((range plan s.root start r).final m).Placed A.codec) :
    Orderly s plan start r m where
  in_step alarm := range_eq_audited hf alarm s.root start r
  mem_visits x w := by
    rw [← hs.codec_eq]
    exact Walk.mem_visits hs.accepted
  ascending := visits_ascending hs.accepted
  ends := range_swept hs hi r hp

/-- Mapping three pages visits all of them, and unmapping them only the one that is mapped. The
last page reaches beyond the end of the range. -/
theorem orderly_crowded :
    let s := Realm.firstSpace .riscv64 0x1000000
    let c := Architecture.riscv64.codec
    let m := Realm.crowded.memory
    let mapping : Plan Bool := ⟨c, .map c 0x4000 ⟨0x90000000⟩ (.forUser .readWrite), true, 0x6800⟩
    let unmapping : Plan Bool := ⟨c, .unmap, true, 0x6800⟩
    (Orderly s mapping 0x4000 false m ∧
      (mapping.visits (s.leafAt m) 0x4000).map Prod.fst = [0x4000, 0x5000, 0x6000]) ∧
    Orderly s unmapping 0x4000 false m ∧
      (unmapping.visits (s.leafAt m) 0x4000).map Prod.fst = [0x5000] := by
  intro s c m mapping unmapping
  obtain ⟨hreach, hbefore⟩ := Realm.reachable_crowded
  have hp : m.Placed c := Realm.placed_startingAt hbefore (by decide) (by decide +kernel)
  have hi : Intact Realm.crowded.spaces m := (hreach.sound hp).intact
  have hs : s ∈ Realm.crowded.spaces := List.mem_cons_self
  have ha : Accepted 0x4000 0x6800 := accept_eq_ok_iff.mp (by decide)
  have he : Editable Realm.crowded.spaces s 0x4000 0x6800 :=
    (hreach.wellSplit s hs).editable (Realm.unshared_single .riscv64 0x1000000) ha nofun
  have hmapping : Scope Realm.crowded.spaces s mapping 0x4000 :=
    ⟨rfl, hs, ha, fun _ _ _ _ _ => map_leaves (by decide), Or.inr he⟩
  have hunmapping : Scope Realm.crowded.spaces s unmapping 0x4000 :=
    ⟨rfl, hs, ha, fun _ _ _ _ _ => unmap_leaves, Or.inr he⟩
  have hmapped : ((range mapping s.root 0x4000 false).final m).Placed c :=
    Realm.placed_startingAt (hbefore.trans ((range_triple hmapping .starved false).before m))
      (by decide) (by decide +kernel)
  have hunmapped : ((range unmapping s.root 0x4000 false).final m).Placed c :=
    hp.of_supply ((leaves_range (Plan.leaves_supply rfl) _ _ _).final_eq m)
  exact ⟨⟨hmapping.orderly (fills_map (by decide) _) hi false hmapped, by decide +kernel⟩,
    hunmapping.orderly nofun hi false hunmapped, by decide +kernel⟩

end Walk

end Sandbox
