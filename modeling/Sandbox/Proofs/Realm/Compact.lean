import Sandbox.Proofs.Realm.Calls
import Sandbox.Proofs.Realm.Unmapping
import Sandbox.Proofs.Space.Compact

/-! # Compact spaces in a realm

A change that returns keeps a space compact: what a mapping attaches leads to pages of its range,
and what the others empty they release. So a space stays compact as long as its changes return.
-/

namespace Sandbox

open AddressSpace Walk

variable {A : Architecture} {S : List (AddressSpace A)} {s : AddressSpace A} {m m' m₀ : Memory}
  {a : VirtualAddress} {length start stop : Word} {o : MapOptions} {physical : PhysicalAddress}
  {changed : Bool}

namespace AddressSpace

/-! ## Changes that returned -/

structure Unmapped (S : List (AddressSpace A)) (s : AddressSpace A) (a : VirtualAddress)
    (length : Word) (m₀ m : Memory) : Prop where
  range : ∃ stop, stop.toNat = a.word.toNat + length.toNat ∧ Accepted a.word stop ∧
    Pruned S s a.word stop m₀ m ∧ ClearedUpTo a.word (s.leafAt m₀) (pageEnd stop) (s.leafAt m)
  allocations : m.allocations = m₀.allocations

theorem unmap_returns (hi : Intact S m) (hs : s ∈ S) (hun : Unshared S s)
    (hp : m.Placed A.codec) (hacc : s.Accepts a length) :
    ∃ changed, (s.unmap a length).outcome m = .ok changed ∧
      Unmapped S s a length m ((s.unmap a length).final m) := by
  obtain ⟨stop, hb, hm, ha⟩ := hacc.exists_stop
  have htriple := clear_walk_triple hs ((hi.split s hs).editable hun ha hm.stop_le) ha m
  rw [← unmap_eq hb] at htriple
  have hsupply := (leaves_unmap s a length).final_eq m
  obtain ⟨changed, hout, hpruned, hclear⟩ := htriple.returns (leaves_unmap s a length) ⟨rfl, hi⟩ hp
  exact ⟨changed, hout, ⟨stop, hm.stop_eq, ha, hpruned, hclear⟩, (Prod.mk.inj hsupply).1⟩

theorem unmapped_of_ok (hi : Intact S m) (hs : s ∈ S) (hun : Unshared S s)
    (hp : m.Placed A.codec) (hok : (s.unmap a length).outcome m = .ok changed) :
    Unmapped S s a length m ((s.unmap a length).final m) := by
  have hacc : s.Accepts a length := Change.accepts (.unmap a length) hok
  obtain ⟨-, -, h⟩ := unmap_returns hi hs hun hp hacc
  exact h

theorem pruned_of_ok (hi : Intact S m) (hs : s ∈ S) (hun : Unshared S s)
    (hp : m.Placed A.codec) (ho : o.access.any = true)
    (hok : (s.protect a length o).outcome m = .ok changed) :
    ∃ stop, Pruned S s a.word stop m ((s.protect a length o).final m) := by
  have hacc : s.Accepts a length := Change.accepts (.protect a length o) hok
  obtain ⟨stop, hb, hm, ha⟩ := hacc.exists_stop
  have htriple := regrant_triple hs ((hi.split s hs).editable hun ha hm.stop_le) ha ho m
  rw [← protect_eq hb ho] at htriple
  obtain ⟨-, -, hpruned, -⟩ := htriple.returns (leaves_protect s a length o) ⟨rfl, hi⟩ hp
  exact ⟨stop, hpruned⟩

theorem map_framed (hi : Intact S m) (hs : s ∈ S) (hun : Unshared S s)
    (hok : (s.map a length o physical).outcome m = .ok changed)
    (hp : ((s.map a length o physical).final m).Placed A.codec) :
    ∃ stop, stop.toNat = a.word.toNat + length.toNat ∧ Accepted a.word stop ∧
      Intact S ((s.map a length o physical).final m) ∧
      Framed S s a.word stop m ((s.map a length o physical).final m) ∧
      ∀ q b b', s.Owns m q b → s.Owns ((s.map a length o physical).final m) q b' → b' = b := by
  have hsplit := hi.split s hs
  by_cases ho : o.access.any = true
  · have hm := (map_triple hs hsplit hun ho physical m).of_ok ⟨rfl, hi⟩ hp hok
    obtain ⟨stop, hstop, ha, hf, -, ⟨new, hg⟩, -⟩ := hm.range
    refine ⟨stop, hstop, ha, hm.intact, hf, fun q b b' hb hb' => ?_⟩
    exact Option.some.inj (hb'.arrayAt_eq.symm.trans (hg.owns q b hb).arrayAt_eq)
  · have heq := map_eq_unmap s a length (Bool.eq_false_iff.mpr ho) physical
    rw [heq] at hok hp ⊢
    have hp₀ := (Change.unmap a length).placed hs hsplit hun hp
    obtain ⟨stop, hstop, ha, hpruned, -⟩ := (unmapped_of_ok hi hs hun hp₀ hok).range
    obtain ⟨freed, hr⟩ := hpruned.released
    refine ⟨stop, hstop, ha, hpruned.intact, hpruned.framed, fun q b b' hb hb' => ?_⟩
    exact Option.some.inj ((hr.owns q b' hb').arrayAt_eq.symm.trans hb.arrayAt_eq)

/-- A compact space is as it was once what was mapped in an unmapped range is cleared. -/
theorem untouched_of_cleared {m'' : Memory} (hi : Intact S m) (hs : s ∈ S) (hc : s.Compact m)
    (hi' : Intact S m') (hc' : s.Compact m') (hf : Framed S s start stop m m')
    (hplace : ∀ q b b', s.Owns m q b → s.Owns m' q b' → b' = b)
    (hpruned : Pruned S s start stop m' m'')
    (hclear : ClearedUpTo start (s.leafAt m') (pageEnd stop) (s.leafAt m''))
    (hnone : ∀ y, s.Maps m y → ¬ Covers start stop y) : s.Untouched m m'' := by
  obtain ⟨freed, hr⟩ := hpruned.released
  have hleaf (y : Word) (hy : IsPage y) : s.leafAt m'' y = s.leafAt m y := by
    by_cases hcov : start.toNat ≤ y.toNat ∧ y.toNat < pageEnd stop
    · rw [hclear y hy, if_pos hcov]
      refine ((hi.leafAt_zero_or_leaf hs y).resolve_right ?_).symm
      rintro ⟨b, o, hl⟩
      exact hnone y ⟨hy, hl.isValid A.lawful⟩ hcov
    · rw [hclear y hy, if_neg hcov, hf.own y hy.canonical hcov]
  have hmaps (y : Word) : s.Maps m'' y ↔ s.Maps m y := by
    apply and_congr_right
    intro hy
    rw [hleaf y hy]
  apply untouched_of_leaves hi hpruned.intact hs
  · exact fun t ht hne => (hf.others t ht hne).trans (hpruned.framed.others t ht hne)
  · exact fun q b => hc.owns_iff (hpruned.compact hi' hs hc') hmaps
      fun q b b' hb hb' => hplace q b b' hb (hr.owns q b' hb')
  · exact hleaf

theorem Mapped.compact (h : Mapped S s a length o physical m₀ m) (hc : s.Compact m₀) :
    s.Compact m := by
  obtain ⟨stop, -, ha, -, hmap, ⟨new, hg⟩, -⟩ := h.range
  exact hg.compact ha hmap hc

end AddressSpace

theorem Change.compact (ch : Change) (hi : Intact S m) (hs : s ∈ S) (hun : Unshared S s)
    (hok : (ch.run s).outcome m = .ok changed) (hp : ((ch.run s).final m).Placed A.codec)
    (hc : s.Compact m) : s.Compact ((ch.run s).final m) := by
  have hp₀ := ch.placed hs (hi.split s hs) hun hp
  have hunmap {a : VirtualAddress} {length : Word}
      (hok : (s.unmap a length).outcome m = .ok changed) :
      s.Compact ((s.unmap a length).final m) := by
    obtain ⟨stop, -, -, hpruned, -⟩ := (unmapped_of_ok hi hs hun hp₀ hok).range
    exact hpruned.compact hi hs hc
  cases ch with
  | map a length o physical =>
    change (s.map a length o physical).outcome m = .ok changed at hok
    change ((s.map a length o physical).final m).Placed A.codec at hp
    change s.Compact ((s.map a length o physical).final m)
    by_cases ho : o.access.any = true
    · exact ((map_triple hs (hi.split s hs) hun ho physical m).of_ok ⟨rfl, hi⟩ hp hok).compact hc
    · rw [map_eq_unmap s a length (Bool.eq_false_iff.mpr ho)] at hok ⊢
      exact hunmap hok
  | unmap a length => exact hunmap hok
  | protect a length o =>
    change (s.protect a length o).outcome m = .ok changed at hok
    change s.Compact ((s.protect a length o).final m)
    by_cases ho : o.access.any = true
    · obtain ⟨stop, hpruned⟩ := pruned_of_ok hi hs hun hp₀ ho hok
      exact hpruned.compact hi hs hc
    · rw [protect_eq_unmap s a length (Bool.eq_false_iff.mpr ho)] at hok ⊢
      exact hunmap hok

/-! ## Runs -/

theorem Born.compact (h : Born S m₀ s m) : s.Compact m :=
  fun _ _ hq ho => absurd (h.owns_iff.mp ho).1 hq

theorem AddressSpace.Compact.freeze (h : s.Compact m) : s.freeze.Compact m :=
  fun q b hq ho => h q b hq ((owns_frozen_iff true).mp ho)

namespace Realm

variable {R R' : Realm A} {owner : OwnerId} {c : Call A}

/-- The call is not a change of the space of this owner that stops early. -/
def Returns (owner : OwnerId) (R : Realm A) : Call A → Prop
  | .change s ch => s.owner = owner → ∃ changed, (ch.run s).outcome R.memory = .ok changed
  | _ => True

theorem Sound.compact_made {act : Action Memory (AddressSpace A)} {new : OwnerId} (h : Sound R)
    (htriple : Triple A.codec (fun m => m = R.memory ∧ Intact R.spaces m) act
      (fun s m => s.owner = new ∧ Born R.spaces R.memory s m) (NotMade R.memory))
    (hp : (act.final R.memory).Placed A.codec)
    (hold : ∀ s ∈ R.spaces, s.owner = owner → s.Compact R.memory) :
    ∀ s ∈ Call.joined R.spaces (act.outcome R.memory), s.owner = owner →
      s.Compact (act.final R.memory) := by
  intro s hs howner
  obtain ⟨t, hspaces, hborn⟩ | ⟨hspaces, hsame⟩ := made_cases h.intact htriple hp
  · rw [hspaces] at hs
    rcases List.mem_cons.mp hs with rfl | hs
    · exact hborn.compact
    · exact (hold s hs howner).untouched (hborn.untouched h.intact hs)
  · rw [hspaces] at hs
    rw [hsame]
    exact hold s hs howner

/-- As long as the changes of one owner return, its space stays compact. -/
theorem Sound.compact_next (h : Sound R) (hc : c.Allowed R) (hret : Returns owner R c)
    (hp : (c.next R).memory.Placed A.codec)
    (hold : ∀ s ∈ R.spaces, s.owner = owner → s.Compact R.memory) :
    ∀ s ∈ (c.next R).spaces, s.owner = owner → s.Compact (c.next R).memory := by
  intro s hs howner
  have hi := h.intact
  have hother (hs : s ∈ R.spaces) (hn : ¬ c.On s.owner) : s.Compact (c.next R).memory :=
    (hold s hs howner).untouched (h.untouched hc hp hs hn).2
  cases c with
  | create o => exact h.compact_made (create_triple hc R.memory) hp hold s hs howner
  | createAbove base start o =>
    exact h.compact_made (createAbove_triple hc.1 hc.2 start R.memory) hp hold s hs howner
  | change t ch =>
    by_cases hon : t.owner = s.owner
    · obtain rfl := hi.owner_inj t hc.1 s hs hon
      obtain ⟨changed, hok⟩ := hret howner
      exact ch.compact hi hs hc.2 hok hp (hold t hs howner)
    · exact hother hs hon
  | freeze t =>
    obtain ⟨r, hr, rfl⟩ := List.mem_map.mp hs
    by_cases hrt : r = t
    · rw [if_pos hrt] at howner ⊢
      exact (hold r hr howner).freeze
    · rw [if_neg hrt] at howner ⊢
      exact hold r hr howner
  | drop t =>
    obtain ⟨hs, hne⟩ := mem_spaces_drop.mp hs
    exact hother hs fun hon => hne (hi.owner_inj s hs t hc.1 hon.symm)

theorem Leads.compact (h : Leads (Returns owner) R R') (hR : Reachable R)
    (hp : R'.memory.Placed A.codec) (hnew : ∀ s ∈ R.spaces, s.owner ≠ owner) :
    ∀ s ∈ R'.spaces, s.owner = owner → s.Compact R'.memory := by
  induction h with
  | refl => exact fun s hs howner => absurd howner (hnew s hs)
  | call h hc hret ih =>
    have hreach := h.reachable hR
    have hp' := hp.of_before (hc.step.before hreach.wellSplit)
    exact (hreach.sound hp').compact_next hc hret hp (ih hp')

end Realm

end Sandbox
