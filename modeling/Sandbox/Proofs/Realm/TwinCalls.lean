import Sandbox.Proofs.Realm.Balance
import Sandbox.Proofs.Realm.Twins
import Sandbox.Proofs.Space.Census

/-! # Calls on twins

A call that is made on twins leaves twins. What a space owns is told by the shape of its tree,
so as much is freed with a space as with its twin, and a new space has the shape that its base
has above the split, and is bare below it.
-/

namespace Sandbox

open AddressSpace Walk

variable {A A' : Architecture} {S : List (AddressSpace A)} {R : Realm A} {R' : Realm A'}
  {s b : AddressSpace A} {s' b' : AddressSpace A'} {m n m' n' : Memory} {q : List (Fin 512)}
  {owner : OwnerId} {upper : Option SharedUpper}

/-! ## What a space owns -/

theorem AddressSpace.mem_ownPaths_iff : q ∈ s.ownPaths m ↔
    s.OwnsPath q ∧ q.length ≤ 3 ∧ s.shapeAt m q = .table := by
  constructor
  · rintro ⟨a, ho⟩
    exact ⟨ho.ownsPath, ho.length_le, (shapeAt_eq_table_iff ho.length_le).mpr ⟨a, ho.arrayAt_eq⟩⟩
  · rintro ⟨hown, hlen, hshape⟩
    obtain ⟨a, ha⟩ := (shapeAt_eq_table_iff hlen).mp hshape
    exact ⟨a, hown, hlen, ha⟩

theorem AddressSpace.Alike.ownPaths_eq (h : s.Alike m s' m') : s'.ownPaths m' = s.ownPaths m := by
  ext q
  rw [mem_ownPaths_iff, mem_ownPaths_iff, ownsPath_congr h.upper, h.shape]

/-- The teardown of a space frees an array for each path that is the space's own. -/
theorem Realm.Sound.tally_teardown (h : Sound R) (hp : R.memory.Placed A.codec) (hs : s ∈ R.spaces)
    (hun : Unshared R.spaces s) : (s.teardown.final R.memory).tally =
      ⟨R.memory.liveCount - (s.ownPaths R.memory).ncard, R.memory.allocations,
        R.memory.frees + (s.ownPaths R.memory).ncard⟩ := by
  have htorn := (h.tornDown hp hs hun).2
  obtain ⟨freed, hgiven⟩ := htorn.freed
  have hset : {b | b ∈ freed} = s.ownArrays R.memory := Set.ext hgiven.mem_iff
  have hcount : freed.length = (s.ownPaths R.memory).ncard := by
    rw [← card_ownArrays h.intact hs, ← hset, ← List.coe_toFinset, Set.ncard_coe_finset,
      List.toFinset_card_of_nodup hgiven.nodup]
  have hplaced := hp.of_supply (s.leaves_teardown.final_eq R.memory)
  have hbalance := ((accounts_teardown s).final h.intact.books hplaced).balance
  have hfrees := hgiven.frees
  have hallocations := htorn.allocations
  rw [Memory.tally, Tally.mk.injEq]
  omega

/-! ## The tree of a new space -/

namespace Born

theorem shapeAt_own (hb : Born S m s n) (hown : s.OwnsPath q) (hq : q ≠ []) :
    s.shapeAt n q = .free := by
  match q, hq with
  | [i], _ =>
    rw [shapeAt_cons (by simp) (s.arrayAt_nil n), hb.own i (hown i rfl), A.lawful.shape_zero]
  | i :: j :: p, _ =>
    exact shapeAt_cons_of_none
      (hb.arrayAt_none (ownsPath_of_suffix hown (List.suffix_cons i _)) (List.cons_ne_nil j p))

theorem shapeAt_shared (hb : Born S m s n) (h : Intact S m) (hown : ¬ s.OwnsPath q) :
    ∃ u, s.upper = some u ∧ ∃ b ∈ S, b.owner = u.owner ∧ s.shapeAt n q = b.shapeAt m q := by
  obtain ⟨i, hi, hslot⟩ : ∃ i, q.getLast? = some i ∧ ¬ s.OwnsSlot i := by
    unfold OwnsPath at hown
    push Not at hown
    exact hown
  obtain ⟨u, hu⟩ := exists_upper hslot
  obtain ⟨b, hbS, hbu, hcopy⟩ := hb.shared u hu
  have heq : n.entry s.root i = n.entry b.root i := by
    rw [hcopy i hslot, hb.same b.root (h.mem_live hbS (Intact.root_owns b m))]
  refine ⟨u, hu, b, hbS, hbu, ?_⟩
  rw [shapeAt_congr_root heq hi, (hb.untouched h hbS).shapeAt_eq]

end Born

namespace AddressSpace.Spawns

variable {act : Action Memory (AddressSpace A)}

theorem tally_eq (h : Spawns act m owner upper) (hroom : m.limitReached = false)
    (hnew : m.nextArray ∉ m.live) :
    (act.final m).tally = ⟨m.liveCount + 1, m.allocations + 1, m.frees⟩ := by
  have hbooks := (h.room hroom).2
  have hlive : (act.final m).liveCount = m.handOut.liveCount :=
    congrArg Std.ExtTreeSet.size hbooks.live
  rw [Memory.tally, hlive, hbooks.allocations, hbooks.frees, Memory.liveCount_handOut hnew]
  rfl

end AddressSpace.Spawns

namespace Realm.Twins

theorem twins_next {c : Call A} {c' : Call A'} (h : R.Twins R') (hc : c.Allowed R)
    (hc' : c'.Allowed R') (hp : (c.next R).memory.Placed A.codec)
    (hp' : (c'.next R').memory.Placed A'.codec)
    (htally : (c'.next R').memory.tally = (c.next R).memory.tally)
    (hspaces : List.Forall₂ (fun s s' => s.Alike (c.next R).memory s' (c'.next R').memory)
      (c.next R).spaces (c'.next R').spaces) : (c.next R).Twins (c'.next R') where
  sound := hc.step.sound h.sound hp
  sound' := hc'.step.sound h.sound' hp'
  abreast := by
    refine ⟨?_, htally⟩
    rw [(h.sound.accounted_next c hp).limit, (h.sound'.accounted_next c' hp').limit,
      h.abreast.limit]
  spaces := hspaces

/-! ## New spaces -/

theorem alike_born (h : R.Twins R') (hb : Born R.spaces R.memory s n)
    (hb' : Born R'.spaces R'.memory s' n') (howner : s'.owner = s.owner)
    (hupper : s'.upper = s.upper) (hfrozen : s'.frozen = s.frozen) : s.Alike n s' n' := by
  refine ⟨howner, hupper, hfrozen, ?_⟩
  funext q
  by_cases hq : q = []
  · rw [hq, shapeAt_nil, shapeAt_nil]
  by_cases hown : s.OwnsPath q
  · rw [hb.shapeAt_own hown hq, hb'.shapeAt_own ((ownsPath_congr hupper q).mpr hown) hq]
  · obtain ⟨u, hu, b, hbS, hbu, hshape⟩ := hb.shapeAt_shared h.sound.intact hown
    obtain ⟨u', hu', b', hbS', hbu', hshape'⟩ :=
      hb'.shapeAt_shared h.sound'.intact fun hown' => hown ((ownsPath_congr hupper q).mp hown')
    obtain rfl : u = u' := Option.some.inj (hu.symm.trans (hupper.symm.trans hu'))
    -- the base of the one is the twin of the base of the other
    obtain ⟨t, ht, hat⟩ := h.exists_twin hbS'
    obtain rfl := h.sound.intact.owner_inj t ht b hbS (hat.owner.symm.trans (hbu'.trans hbu.symm))
    rw [hshape, hshape', hat.shape]

theorem owner_lt_of_newest (h : R.Twins R') (hnew : ∀ t ∈ R.spaces, t.owner.number < owner.number) :
    ∀ t ∈ R'.spaces, t.owner.number < owner.number := by
  intro t' ht'
  obtain ⟨t, ht, hat⟩ := h.exists_twin ht'
  rw [hat.owner]
  exact hnew t ht

section Spawn

variable {act : Action Memory (AddressSpace A)} {act' : Action Memory (AddressSpace A')}
  (c : Call A) (c' : Call A')

/-- Calls that make a space of the same part make it in both realms or in none. -/
theorem twins_spawn (h : R.Twins R') (hc : c.Allowed R) (hc' : c'.Allowed R')
    (hnext : c.next R = ⟨act.final R.memory, Call.joined R.spaces (act.outcome R.memory)⟩)
    (hnext' : c'.next R' = ⟨act'.final R'.memory, Call.joined R'.spaces (act'.outcome R'.memory)⟩)
    (hspawns : Spawns act R.memory owner upper) (hspawns' : Spawns act' R'.memory owner upper)
    (hborn : ∀ s, act.outcome R.memory = .ok s → Born R.spaces R.memory s (act.final R.memory))
    (hborn' : ∀ s, act'.outcome R'.memory = .ok s →
      Born R'.spaces R'.memory s (act'.final R'.memory))
    (hp : (c.next R).memory.Placed A.codec) (hp' : (c'.next R').memory.Placed A'.codec) :
    (act'.outcome R'.memory).map (fun _ => ()) = (act.outcome R.memory).map (fun _ => ()) ∧
      (c.next R).Twins (c'.next R') := by
  cases hlimit : R.memory.limitReached with
  | true =>
    obtain ⟨hout, hfinal⟩ := hspawns.full hlimit
    obtain ⟨hout', hfinal'⟩ := hspawns'.full (h.abreast.limitReached_eq.trans hlimit)
    rw [hnext, hnext', hout, hout', hfinal, hfinal']
    exact ⟨rfl, h⟩
  | false =>
    have hlimit' := h.abreast.limitReached_eq.trans hlimit
    have hout := (hspawns.room hlimit).1
    have hout' := (hspawns'.room hlimit').1
    have hb := hborn _ hout
    have hb' := hborn' _ hout'
    refine ⟨by rw [hout, hout']; rfl, h.twins_next hc hc' hp hp' ?_ ?_⟩
    · rw [hnext, hnext', hspawns.tally_eq hlimit hb.not_live,
        hspawns'.tally_eq hlimit' hb'.not_live]
      obtain ⟨hlive, hallocations, hfrees⟩ := Tally.mk.inj h.abreast.tally
      rw [hlive, hallocations, hfrees]
    · rw [hnext, hnext', hout, hout']
      refine .cons (h.alike_born hb hb' rfl rfl rfl) (h.pairs.imp ?_)
      rintro t t' ⟨ht, ht', hat⟩
      exact hat.untouched (hb.untouched h.sound.intact ht) (hb'.untouched h.sound'.intact ht')

end Spawn

theorem twins_create (h : R.Twins R') (hnew : ∀ t ∈ R.spaces, t.owner.number < owner.number)
    (hp : ((Call.create owner).next R).memory.Placed A.codec)
    (hp' : ((Call.create owner).next R').memory.Placed A'.codec) :
    ((AddressSpace.create A' owner).outcome R'.memory).map (fun _ => ()) =
        ((AddressSpace.create A owner).outcome R.memory).map (fun _ => ()) ∧
      ((Call.create owner).next R).Twins ((Call.create owner).next R') := by
  have hnew' := h.owner_lt_of_newest hnew
  exact h.twins_spawn (.create owner) (.create owner) hnew hnew' rfl rfl
    (spawns_create A owner _) (spawns_create A' owner _)
    (fun s hs => ((create_triple hnew R.memory).of_ok ⟨rfl, h.sound.intact⟩ hp hs).2)
    (fun s hs => ((create_triple hnew' R'.memory).of_ok ⟨rfl, h.sound'.intact⟩ hp' hs).2) hp hp'

theorem twins_createAbove (h : R.Twins R') (hb : b ∈ R.spaces) (hb' : b' ∈ R'.spaces)
    (ha : b.Alike R.memory b' R'.memory) (start : VirtualAddress)
    (hnew : ∀ t ∈ R.spaces, t.owner.number < owner.number)
    (hp : ((Call.createAbove b start owner).next R).memory.Placed A.codec)
    (hp' : ((Call.createAbove b' start owner).next R').memory.Placed A'.codec) :
    ((b'.createAbove start owner).outcome R'.memory).map (fun _ => ()) =
        ((b.createAbove start owner).outcome R.memory).map (fun _ => ()) ∧
      ((Call.createAbove b start owner).next R).Twins
        ((Call.createAbove b' start owner).next R') := by
  have hnew' := h.owner_lt_of_newest hnew
  cases hslot : rootSlot start.word with
  | error e =>
    rw [Call.next, Call.next, createAbove_eq_throw hslot, createAbove_eq_throw hslot]
    exact ⟨rfl, h⟩
  | ok first =>
    have hspawns' := spawns_createAbove hslot b' owner R'.memory
    rw [ha.owner] at hspawns'
    exact h.twins_spawn (.createAbove b start owner) (.createAbove b' start owner)
      ⟨hb, hnew⟩ ⟨hb', hnew'⟩ rfl rfl (spawns_createAbove hslot b owner _) hspawns'
      (fun s hs =>
        ((createAbove_triple hb hnew start R.memory).of_ok ⟨rfl, h.sound.intact⟩ hp hs).2)
      (fun s hs =>
        ((createAbove_triple hb' hnew' start R'.memory).of_ok ⟨rfl, h.sound'.intact⟩ hp' hs).2)
      hp hp'

/-! ## Changes, freezes and drops -/

section Pair

variable (h : R.Twins R') (hs : s ∈ R.spaces) (hs' : s' ∈ R'.spaces)
  (ha : s.Alike R.memory s' R'.memory)

include h hs hs' ha

theorem alike_others {c : Call A} {c' : Call A'} (hc : c.Allowed R) (hc' : c'.Allowed R')
    (hon : ∀ o, c.On o → s.owner = o) (hon' : ∀ o, c'.On o → s'.owner = o)
    (hp : (c.next R).memory.Placed A.codec) (hp' : (c'.next R').memory.Placed A'.codec)
    {t : AddressSpace A} {t' : AddressSpace A'}
    (hpair : t ∈ R.spaces ∧ t' ∈ R'.spaces ∧ t.Alike R.memory t' R'.memory) (hne : t ≠ s) :
    t.Alike (c.next R).memory t' (c'.next R').memory := by
  obtain ⟨ht, ht', hat⟩ := hpair
  have hne' : t' ≠ s' := fun he => hne ((h.eq_iff hs hs' ha ht ht' hat).mpr he)
  have hout : ¬ c.On t.owner := fun ho => hne (h.sound.intact.owner_inj t ht s hs (hon _ ho).symm)
  have hout' : ¬ c'.On t'.owner :=
    fun ho => hne' (h.sound'.intact.owner_inj t' ht' s' hs' (hon' _ ho).symm)
  exact hat.untouched (h.sound.untouched hc hp ht hout).2 (h.sound'.untouched hc' hp' ht' hout').2

theorem twins_freeze : ((Call.freeze s).next R).Twins ((Call.freeze s').next R') := by
  refine ⟨h.sound.freeze s, h.sound'.freeze s', h.abreast, ?_⟩
  refine List.forall₂_map_left_iff.mpr (List.forall₂_map_right_iff.mpr (h.pairs.imp ?_))
  rintro t t' ⟨ht, ht', hat⟩
  have hiff := h.eq_iff hs hs' ha ht ht' hat
  by_cases hts : t = s
  · rw [if_pos hts, if_pos (hiff.mp hts)]
    exact ⟨hat.owner, hat.upper, rfl, hat.shape⟩
  · rw [if_neg hts, if_neg fun hc => hts (hiff.mpr hc)]
    exact hat

variable (hun : Unshared R.spaces s)

include hun

theorem twins_change (ch : Change) (hlow : ch.Low)
    (hp : ((Call.change s ch).next R).memory.Placed A.codec)
    (hp' : ((Call.change s' ch).next R').memory.Placed A'.codec) :
    (ch.run s').outcome R'.memory = (ch.run s).outcome R.memory ∧
      ((Call.change s ch).next R).Twins ((Call.change s' ch).next R') := by
  have hc : (Call.change s ch).Allowed R := ⟨hs, hun⟩
  have hc' : (Call.change s' ch).Allowed R' := ⟨hs', h.unshared ha hun⟩
  have hagree := h.run_agrees hs hs' ha hun ch hlow hp hp'
  refine ⟨hagree.outcome, h.twins_next hc hc' hp hp' hagree.tally (h.pairs.imp ?_)⟩
  intro t t' hpair
  by_cases hts : t = s
  · obtain ⟨ht, ht', hat⟩ := hpair
    obtain rfl := (h.eq_iff hs hs' ha ht ht' hat).mp hts
    subst hts
    exact ⟨hat.owner, hat.upper, hat.frozen, hagree.shape⟩
  · exact h.alike_others hs hs' ha hc hc' (fun _ ho => ho) (fun _ ho => ho) hp hp' hpair hts

theorem twins_drop (hp : ((Call.drop s).next R).memory.Placed A.codec)
    (hp' : ((Call.drop s').next R').memory.Placed A'.codec) :
    s'.teardown.outcome R'.memory = s.teardown.outcome R.memory ∧
      ((Call.drop s).next R).Twins ((Call.drop s').next R') := by
  have hun' := h.unshared ha hun
  have hc : (Call.drop s).Allowed R := ⟨hs, hun⟩
  have hc' : (Call.drop s').Allowed R' := ⟨hs', hun'⟩
  have hp₀ := hp.of_supply (s.leaves_teardown.final_eq R.memory).symm
  have hp₀' := hp'.of_supply (s'.leaves_teardown.final_eq R'.memory).symm
  have hout := (h.sound.tornDown hp₀ hs hun).1
  have hout' := (h.sound'.tornDown hp₀' hs' hun').1
  refine ⟨hout'.trans hout.symm, h.twins_next hc hc' hp hp' ?_ ?_⟩
  · obtain ⟨hlive, hallocations, hfrees⟩ := Tally.mk.inj h.abreast.tally
    rw [Call.next, Call.next, h.sound.tally_teardown hp₀ hs hun,
      h.sound'.tally_teardown hp₀' hs' hun', ha.ownPaths_eq, hlive, hallocations, hfrees]
  · have hne : ∀ t ∈ R.spaces.filter (· ≠ s), t ≠ s := fun t ht => (mem_spaces_drop.mp ht).2
    have hrest := List.rel_filter (p := (· ≠ s)) (q := (· ≠ s'))
      (by
        rintro t t' ⟨ht, ht', hat⟩
        simpa using not_congr (h.eq_iff hs hs' ha ht ht' hat)) h.pairs
    refine ((List.forall₂_and_left _ _).mpr ⟨hne, hrest⟩).imp ?_
    rintro t t' ⟨hts, hpair⟩
    exact h.alike_others hs hs' ha hc hc' (fun _ ho => ho) (fun _ ho => ho) hp hp' hpair hts

end Pair

end Realm.Twins

end Sandbox
