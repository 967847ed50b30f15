import Mathlib.Data.List.Forall2
import Sandbox.Proofs.Realm.Balance
import Sandbox.Proofs.Space.Scouts

/-! # Twins

Two realms are twins if as many arrays are live in both and their spaces have, one by one, the
same owner, the same split and trees of one shape. The entries may be those of two
architectures, and the arrays may lie anywhere. What a walk finds, reports and leaves behind is
the same in both.
-/

namespace Sandbox

open AddressSpace Walk

variable {A A' : Architecture} {R : Realm A} {R' : Realm A'} {s t : AddressSpace A}
  {s' t' : AddressSpace A'} {m n m' n' : Memory} {a : VirtualAddress} {length start stop : Word}
  {owner : OwnerId} {α : Type}

structure Memory.Abreast (m m' : Memory) : Prop where
  limit : m'.limit = m.limit
  tally : m'.tally = m.tally

theorem Memory.Abreast.limitReached_eq (h : m.Abreast m') : m'.limitReached = m.limitReached := by
  have hlive : m'.liveCount = m.liveCount := congrArg Tally.live h.tally
  rw [limitReached, limitReached, h.limit, hlive]

theorem AddressSpace.ownsPath_congr (h : s'.upper = s.upper) (q : List (Fin 512)) :
    s'.OwnsPath q ↔ s.OwnsPath q := by
  unfold OwnsPath OwnsSlot
  rw [h]

/-- The spaces differ in nothing but how entries are spelled and where arrays lie. -/
structure AddressSpace.Alike (s : AddressSpace A) (m : Memory) (s' : AddressSpace A')
    (m' : Memory) : Prop where
  owner : s'.owner = s.owner
  upper : s'.upper = s.upper
  frozen : s'.frozen = s.frozen
  shape : s'.shapeAt m' = s.shapeAt m

namespace AddressSpace.Alike

theorem untouched (h : s.Alike m s' m') (hs : s.Untouched m n) (hs' : s'.Untouched m' n') :
    s.Alike n s' n' :=
  ⟨h.owner, h.upper, h.frozen, by rw [hs.shapeAt_eq, hs'.shapeAt_eq, h.shape]⟩

theorem mutableBounds_eq (h : s.Alike m s' m') (a : VirtualAddress) (length : Word) :
    s'.mutableBounds a length = s.mutableBounds a length := by
  unfold mutableBounds
  rw [h.frozen, h.owner, h.upper]

end AddressSpace.Alike

def Change.Low : Change → Prop
  | map a length _ physical => ∀ stop x : Word, stop.toNat = a.word.toNat + length.toNat →
      Accepted a.word stop → Inside a.word stop x →
      (x + (physical.word - a.word)).toNat < 2 ^ 48
  | unmap _ _ | protect _ _ _ => True

theorem Change.low_map (o : MapOptions) {physical : PhysicalAddress}
    (h : physical.word.toNat + length.toNat ≤ 2 ^ 48) : (map a length o physical).Low := by
  intro stop x hstop ha hx
  have hle := hx.le
  have hlt := hx.lt
  have hword := a.word.isLt
  rw [BitVec.toNat_add, BitVec.toNat_sub]
  omega

namespace Realm

/-- The realms differ in nothing but how entries are spelled and where arrays lie. -/
structure Twins (R : Realm A) (R' : Realm A') : Prop where
  sound : Sound R
  sound' : Sound R'
  abreast : R.memory.Abreast R'.memory
  spaces : List.Forall₂ (fun s s' => s.Alike R.memory s' R'.memory) R.spaces R'.spaces

namespace Twins

theorem pairs (h : R.Twins R') : List.Forall₂ (fun s s' => s ∈ R.spaces ∧ s' ∈ R'.spaces ∧
    s.Alike R.memory s' R'.memory) R.spaces R'.spaces := by
  obtain ⟨hlen, hzip⟩ := List.forall₂_iff_zip.mp h.spaces
  refine List.forall₂_iff_zip.mpr ⟨hlen, fun {s s'} hmem => ?_⟩
  exact ⟨(List.of_mem_zip hmem).1, (List.of_mem_zip hmem).2, hzip hmem⟩

theorem exists_twin (h : R.Twins R') (hs' : s' ∈ R'.spaces) :
    ∃ s ∈ R.spaces, s.Alike R.memory s' R'.memory := by
  have hpairs := h.spaces
  generalize R.spaces = L at hpairs
  generalize R'.spaces = L' at hpairs hs'
  induction hpairs with
  | nil => cases hs'
  | cons hhead _ ih =>
    rcases List.mem_cons.mp hs' with rfl | hs'
    · exact ⟨_, List.mem_cons_self, hhead⟩
    · obtain ⟨s, hs, halike⟩ := ih hs'
      exact ⟨s, List.mem_cons_of_mem _ hs, halike⟩

section Pair

variable (h : R.Twins R') (hs : s ∈ R.spaces) (hs' : s' ∈ R'.spaces)
  (ha : s.Alike R.memory s' R'.memory)

include h hs hs' ha

theorem eq_iff (ht : t ∈ R.spaces) (ht' : t' ∈ R'.spaces) (hat : t.Alike R.memory t' R'.memory) :
    t = s ↔ t' = s' := by
  constructor
  · rintro rfl
    exact h.sound'.intact.owner_inj t' ht' s' hs' (hat.owner.trans ha.owner.symm)
  · rintro rfl
    exact h.sound.intact.owner_inj t ht s hs (hat.owner.symm.trans ha.owner)

omit hs hs' in
theorem unshared (hun : Unshared R.spaces s) : Unshared R'.spaces s' := by
  intro t' ht' u hu
  obtain ⟨t, ht, hat⟩ := h.exists_twin ht'
  rw [ha.owner]
  exact hun t ht u (hat.upper ▸ hu)

end Pair

end Twins

/-! ## Walks -/

structure Agree {β : Type} (R : Realm A) (s : AddressSpace A) (act : Action Memory β)
    (R' : Realm A') (s' : AddressSpace A') (act' : Action Memory β) : Prop where
  outcome : act'.outcome R'.memory = act.outcome R.memory
  tally : (act'.final R'.memory).tally = (act.final R.memory).tally
  shape : s'.shapeAt (act'.final R'.memory) = s.shapeAt (act.final R.memory)

theorem Agree.throw {β : Type} (h : R.Twins R') (ha : s.Alike R.memory s' R'.memory) (e : Stop) :
    Agree R s (throw e : Action Memory β) R' s' (throw e) :=
  ⟨rfl, h.abreast.tally, ha.shape⟩

namespace Twins

variable {v v' : Visitor α} {scout : Scout α} {reclaim : Bool} {r : α}

/-- Walks that one scout leads agree. -/
theorem range_agrees (h : R.Twins R') (ha : s.Alike R.memory s' R'.memory)
    (hs : Scope R.spaces s ⟨A.codec, v, reclaim, stop⟩ start)
    (hs' : Scope R'.spaces s' ⟨A'.codec, v', reclaim, stop⟩ start)
    (hl : scout.Leads A v start stop) (hl' : scout.Leads A' v' start stop)
    (hp : ((range ⟨A.codec, v, reclaim, stop⟩ s.root start r).final R.memory).Placed A.codec)
    (hp' : ((range ⟨A'.codec, v', reclaim, stop⟩ s'.root start r).final R'.memory).Placed
      A'.codec) :
    Agree R s (range ⟨A.codec, v, reclaim, stop⟩ s.root start r)
      R' s' (range ⟨A'.codec, v', reclaim, stop⟩ s'.root start r) := by
  have hends := range_ends hs hl h.sound.intact r hp
  have hends' := range_ends hs' hl' h.sound'.intact r hp'
  have hcourse : (Plan.course ⟨A'.codec, v', reclaim, stop⟩ scout R'.memory.limit) =
      Plan.course ⟨A.codec, v, reclaim, stop⟩ scout R.memory.limit := by
    rw [h.abreast.limit]
    rfl
  have hstage : Walk.stage s' stop [] start r R'.memory =
      Walk.stage s stop [] start r R.memory := by
    rw [Walk.stage, Walk.stage, ha.shape, h.abreast.tally]
  rw [hcourse] at hends'
  have heq := hends.unique (hstage ▸ hends')
  obtain ⟨hout, hshape, htally⟩ := Ending.mk.inj heq
  exact ⟨hout.symm, htally.symm, hshape.symm⟩

section Pair

variable (h : R.Twins R') (hs : s ∈ R.spaces) (hs' : s' ∈ R'.spaces)
  (ha : s.Alike R.memory s' R'.memory)

include h hs hs' ha

theorem change_agrees (hun : Unshared R.spaces s)
    (hle : ∀ u, s.upper = some u → stop.toNat ≤ u.start.toNat)
    (hl : Accepted start stop → scout.Leads A v start stop ∧ scout.Leads A' v' start stop)
    (hp : ((s.change v start stop r).final R.memory).Placed A.codec)
    (hp' : ((s'.change v' start stop r).final R'.memory).Placed A'.codec) :
    Agree R s (s.change v start stop r) R' s' (s'.change v' start stop r) := by
  cases hacc : accept start stop with
  | error e =>
    unfold change
    rw [range_eq_throw hacc, range_eq_throw hacc]
    exact .throw h ha _
  | ok u =>
    have hacc := accept_eq_ok_iff.mp hacc
    obtain ⟨hl, hl'⟩ := hl hacc
    have he := (h.sound.intact.split s hs).editable hun hacc hle
    have he' := (h.sound'.intact.split s' hs').editable (h.unshared ha hun) hacc
      fun u hu => hle u (ha.upper ▸ hu)
    exact h.range_agrees ha ⟨rfl, hs, hacc, fun _ _ _ _ _ => hl.leaves, Or.inr he⟩
      ⟨rfl, hs', hacc, fun _ _ _ _ _ => hl'.leaves, Or.inr he'⟩ hl hl' hp hp'

theorem inspect_outcome_eq (hv : Watches v) (hv' : Watches v')
    (hl : scout.Leads A v start stop) (hl' : scout.Leads A' v' start stop)
    (hp : R.memory.Placed A.codec) (hp' : R'.memory.Placed A'.codec) :
    (s'.inspect v' start stop r).outcome R'.memory =
      (s.inspect v start stop r).outcome R.memory := by
  cases hacc : accept start stop with
  | error e =>
    unfold inspect
    rw [range_eq_throw hacc, range_eq_throw hacc]
    rfl
  | ok u =>
    have hacc := accept_eq_ok_iff.mp hacc
    have hfinal := hv.final_inspect s start stop r R.memory
    have hfinal' := hv'.final_inspect s' start stop r R'.memory
    exact (h.range_agrees ha
      ⟨rfl, hs, hacc, fun _ _ _ _ _ => hl.leaves, Or.inl (hv.readOnly A stop)⟩
      ⟨rfl, hs', hacc, fun _ _ _ _ _ => hl'.leaves, Or.inl (hv'.readOnly A' stop)⟩ hl hl'
      (hfinal.symm ▸ hp) (hfinal'.symm ▸ hp')).outcome

/-! ## Changes -/

theorem unmap_agrees (hun : Unshared R.spaces s)
    (hb : s.mutableBounds a length = .ok (start, stop)) (hm : s.Mutable a length start stop)
    (hp : ((s.unmap a length).final R.memory).Placed A.codec)
    (hp' : ((s'.unmap a length).final R'.memory).Placed A'.codec) :
    Agree R s (s.unmap a length) R' s' (s'.unmap a length) := by
  have hb' := (ha.mutableBounds_eq a length).trans hb
  rw [unmap_eq hb] at hp ⊢
  rw [unmap_eq hb'] at hp' ⊢
  exact h.change_agrees hs hs' ha hun hm.stop_le
    (fun _ => ⟨Scout.leads_unmap A start stop, Scout.leads_unmap A' start stop⟩) hp hp'

theorem protect_agrees (hun : Unshared R.spaces s)
    (hb : s.mutableBounds a length = .ok (start, stop)) (hm : s.Mutable a length start stop)
    (o : MapOptions) (hp : ((s.protect a length o).final R.memory).Placed A.codec)
    (hp' : ((s'.protect a length o).final R'.memory).Placed A'.codec) :
    Agree R s (s.protect a length o) R' s' (s'.protect a length o) := by
  have hb' := (ha.mutableBounds_eq a length).trans hb
  by_cases ho : o.access.any = true
  · rw [protect_eq hb ho] at hp ⊢
    rw [protect_eq hb' ho] at hp' ⊢
    exact h.change_agrees hs hs' ha hun hm.stop_le
      (fun _ => ⟨Scout.leads_protect ho, Scout.leads_protect ho⟩) hp hp'
  · have hno := Bool.eq_false_iff.mpr ho
    rw [protect_eq_unmap _ _ _ hno] at hp ⊢
    rw [protect_eq_unmap _ _ _ hno] at hp' ⊢
    exact h.unmap_agrees hs hs' ha hun hb hm hp hp'

theorem map_agrees (hun : Unshared R.spaces s)
    (hb : s.mutableBounds a length = .ok (start, stop)) (hm : s.Mutable a length start stop)
    {o : MapOptions} {physical : PhysicalAddress} (hlow : (Change.map a length o physical).Low)
    (hp : ((s.map a length o physical).final R.memory).Placed A.codec)
    (hp' : ((s'.map a length o physical).final R'.memory).Placed A'.codec) :
    Agree R s (s.map a length o physical) R' s' (s'.map a length o physical) := by
  have hb' := (ha.mutableBounds_eq a length).trans hb
  by_cases ho : o.access.any = true
  · rw [map_eq hb ho] at hp ⊢
    rw [map_eq hb' ho] at hp' ⊢
    split
    · next hbound =>
      rw [if_pos hbound] at hp hp'
      obtain rfl := hm.start_eq
      have hlead (B : Architecture) (hacc : Accepted a.word stop) :
          (Scout.map a.word physical o.normalized).Leads B
            (Visitor.map B.codec a.word physical o.normalized) a.word stop :=
        Scout.leads_map ho fun x hx => EntryCodec.fits_of_lt B (hlow stop x hm.stop_eq hacc hx)
      exact h.change_agrees hs hs' ha hun hm.stop_le
        (fun hacc => ⟨hlead A hacc, hlead A' hacc⟩) hp hp'
    · exact .throw h ha _
  · have hno := Bool.eq_false_iff.mpr ho
    rw [map_eq_unmap _ _ _ hno] at hp ⊢
    rw [map_eq_unmap _ _ _ hno] at hp' ⊢
    exact h.unmap_agrees hs hs' ha hun hb hm hp hp'

/-- A change does the same to both, as long as it maps to what every architecture can address. -/
theorem run_agrees (hun : Unshared R.spaces s) (ch : Change) (hlow : ch.Low)
    (hp : ((ch.run s).final R.memory).Placed A.codec)
    (hp' : ((ch.run s').final R'.memory).Placed A'.codec) :
    Agree R s (ch.run s) R' s' (ch.run s') := by
  obtain ⟨start, stop, hb, hm⟩ | ⟨e, hb, -⟩ := s.mutableBounds_cases ch.range.1 ch.range.2
  · cases ch with
    | map a length o physical => exact h.map_agrees hs hs' ha hun hb hm hlow hp hp'
    | unmap a length => exact h.unmap_agrees hs hs' ha hun hb hm hp hp'
    | protect a length o => exact h.protect_agrees hs hs' ha hun hb hm o hp hp'
  · have hb' := (ha.mutableBounds_eq _ _).trans hb
    rw [ch.run_eq_throw hb, ch.run_eq_throw hb']
    exact .throw h ha _

/-! ## Lookups -/

variable (hp : R.memory.Placed A.codec) (hp' : R'.memory.Placed A'.codec)

include hp hp'

theorem lookup_outcome_eq (a : VirtualAddress) :
    (s'.lookup a).outcome R'.memory = (s.lookup a).outcome R.memory := by
  cases hstop : Word.add? a.pageBase.word pageSize with
  | none =>
    rw [lookup_last hstop, lookup_last hstop]
    rfl
  | some stop =>
    rw [lookup_eq hstop, lookup_eq hstop]
    exact h.inspect_outcome_eq hs hs' ha (watches_find A) (watches_find A')
      (Scout.leads_find A _ _) (Scout.leads_find A' _ _) hp hp'

theorem lookupFirst_outcome_eq (a : VirtualAddress) :
    (s'.lookupFirst a).outcome R'.memory = (s.lookupFirst a).outcome R.memory := by
  suffices h : ∀ L : List (Word × Word),
      (s'.findFirst L).outcome R'.memory = (s.findFirst L).outcome R.memory from h _
  intro L
  induction L with
  | nil => rfl
  | cons r L ih =>
    obtain ⟨start, stop⟩ := r
    rw [outcome_findFirst, outcome_findFirst, ih,
      h.inspect_outcome_eq hs hs' ha (watches_find A) (watches_find A')
      (Scout.leads_find A _ _) (Scout.leads_find A' _ _) hp hp']

theorem isEmpty_outcome_eq (a : VirtualAddress) (length : Word) :
    (s'.isEmpty a length).outcome R'.memory = (s.isEmpty a length).outcome R.memory := by
  cases hb : bounds a length with
  | error e =>
    rw [isEmpty_eq_throw s hb, isEmpty_eq_throw s' hb]
    rfl
  | ok r =>
    rw [outcome_isEmpty s R.memory hb, outcome_isEmpty s' R'.memory hb,
      h.inspect_outcome_eq hs hs' ha watches_occupied watches_occupied
      (Scout.leads_occupied A _ _) (Scout.leads_occupied A' _ _) hp hp']

end Pair

end Twins

end Realm

end Sandbox
