import Sandbox.Proofs.Realm.Splitting
import Sandbox.Proofs.Walk.Alike
import Sandbox.Proofs.Walk.Still

/-! # Changes made again

A change that returned finds nothing to do when it is made again, and leaves memory as it is. New
permissions for what was just mapped leave the memory that a mapping with them would have left.
-/

namespace Sandbox

open AddressSpace Walk

variable {A : Architecture} {S : List (AddressSpace A)} {s : AddressSpace A} {m m' : Memory}
  {a : VirtualAddress} {length start stop : Word} {o o' : MapOptions}
  {physical : PhysicalAddress} {f₀ : Word → Word} {changed : Bool}

/-! ## Pages that a visitor leaves as they are -/

theorem AddressSpace.MappedUpTo.isLeafOf {c : EntryCodec} {distance x : Word} {f : Word → Word}
    (h : MappedUpTo c o distance start f₀ (pageEnd stop) f) (ha : Accepted start stop)
    (hx : Inside start stop x) : c.IsLeafOf (f x) ⟨x + distance⟩ o := by
  have hpage := h x (ha.isPage hx)
  rwa [if_pos ⟨hx.le, hx.lt_pageEnd⟩] at hpage

theorem settled_map (hi : Intact S m) (hs : s ∈ S) (ha : Accepted start stop)
    (hmap : MappedUpTo A.codec o.normalized (physical.word - start) start f₀ (pageEnd stop)
      (s.leafAt m)) :
    Settled (Visitor.map A.codec start physical o.normalized) false s start stop m := by
  have hvalid (x : Word) (hx : Inside start stop x) : A.codec.isValid (s.leafAt m x) = true :=
    (hmap.isLeafOf ha hx).isValid A.lawful
  refine ⟨fun x hx _ => ?_, fun _ => hvalid, tidy_of_mapped hi hs ha hvalid⟩
  have hleaf := hmap.isLeafOf ha hx
  refine ⟨some (s.leafAt m x), ?_, fun w hw => (Option.some.inj hw).symm⟩
  simp only [Visitor.map, hleaf.leafWith_eq, hleaf.address_eq A.lawful,
    hleaf.options_eq A.lawful, MapOptions.normalized_normalized, bne_self_eq_false, Bool.or_false,
    Bool.and_false]
  rfl

theorem settled_unmap (ha : Accepted start stop)
    (hclear : ClearedUpTo start f₀ (pageEnd stop) (s.leafAt m))
    (ht : Tidy s m (Passed start stop)) :
    Settled Visitor.unmap false s start stop m := by
  refine ⟨fun x hx hval => ?_, nofun, ht⟩
  have hvalid := hval.resolve_right Bool.false_ne_true
  rw [hclear x (ha.isPage hx), if_pos ⟨hx.le, hx.lt_pageEnd⟩, A.lawful.isValid_zero] at hvalid
  cases hvalid

theorem settled_protect (ha : Accepted start stop)
    (hregrant : RegrantedUpTo A.codec o.normalized start f₀ (pageEnd stop) (s.leafAt m))
    (ht : Tidy s m (Passed start stop)) :
    Settled (Visitor.protect A.codec o.normalized) false s start stop m := by
  refine ⟨fun x hx hval => ⟨none, ?_, nofun⟩, nofun, ht⟩
  have hpage := hregrant x (ha.isPage hx)
  rw [if_pos ⟨hx.le, hx.lt_pageEnd⟩] at hpage
  have hvalid := hval.resolve_right Bool.false_ne_true
  rw [hpage.isValid_eq] at hvalid
  simp only [Visitor.protect, if_pos (hpage.options_eq hvalid)]
  rfl

/-! ## The same change again -/

/-- The call returns, and when it is made again it reports that nothing changed, and changes
nothing. -/
structure Action.RepeatsIdly (act : Action Memory Bool) (m : Memory) : Prop where
  returns : ∃ changed, act.outcome m = .ok changed
  outcome : act.outcome (act.final m) = .ok false
  final : act.final (act.final m) = act.final m

namespace AddressSpace

theorem change_still {v : Visitor Bool} (hi : Intact S m) (hs : s ∈ S)
    (he : Editable S s start stop) (ha : Accepted start stop)
    (hleaf : ∀ x w r u w', v.visit x w r = .ok u → u.entry = some w' →
      w' = 0 ∨ A.codec.IsLeaf w')
    (hset : Settled v false s start stop m)
    (hp : ((s.change v start stop false).final m).Placed A.codec) :
    (s.change v start stop false).outcome m = .ok false ∧
      (s.change v start stop false).final m = m :=
  range_still ⟨rfl, hs, ha, hleaf, Or.inr he⟩ hset hi hp

theorem change_repeats {v : Visitor Bool} (hi : Intact S m) (hs : s ∈ S)
    (he : Editable S s start stop) (ha : Accepted start stop)
    (hleaf : ∀ x w r u w', v.visit x w r = .ok u → u.entry = some w' →
      w' = 0 ∨ A.codec.IsLeaf w')
    (hal : v.allocates = false) (hp : m.Placed A.codec)
    (htriple : Triple A.codec (fun m' => m' = m ∧ Intact S m') (s.change v start stop false)
      (fun _ m' => Intact S m' ∧ Settled v false s start stop m') (fun _ _ => False)) :
    (s.change v start stop false).RepeatsIdly m := by
  have hsupply := leaves_change hal s start stop false
  obtain ⟨changed, hok, hi', hset⟩ := htriple.returns hsupply ⟨rfl, hi⟩ hp
  have hplaced := hp.of_supply (hsupply.final_eq m)
  obtain ⟨hout, hfinal⟩ :=
    change_still hi' hs he ha hleaf hset (hplaced.of_supply (hsupply.final_eq _))
  exact ⟨⟨changed, hok⟩, hout, hfinal⟩

variable (hi : Intact S m) (hs : s ∈ S) (hun : Unshared S s)

include hi hs hun

theorem unmap_repeats (hp : m.Placed A.codec) (hacc : s.Accepts a length) :
    (s.unmap a length).RepeatsIdly m := by
  obtain ⟨stop, hb, hm, ha⟩ := hacc.exists_stop
  have hedit := (hi.split s hs).editable hun ha hm.stop_le
  rw [unmap_eq hb]
  apply change_repeats hi hs hedit ha (fun _ _ _ _ _ => unmap_leaves) rfl hp
  apply (clear_walk_triple hs hedit ha m).post
  rintro r m' ⟨hpruned, hclear⟩
  exact ⟨hpruned.intact, settled_unmap ha hclear hpruned.swept⟩

theorem protect_repeats (hp : m.Placed A.codec) (hacc : s.Accepts a length) (o : MapOptions) :
    (s.protect a length o).RepeatsIdly m := by
  by_cases ho : o.access.any = true
  · obtain ⟨stop, hb, hm, ha⟩ := hacc.exists_stop
    have hedit := (hi.split s hs).editable hun ha hm.stop_le
    rw [protect_eq hb ho]
    apply change_repeats hi hs hedit ha
      (fun _ _ _ _ _ => protect_leaves (MapOptions.any_normalized ho)) rfl hp
    apply (regrant_triple hs hedit ha ho m).post
    rintro r m' ⟨hpruned, hregrant⟩
    exact ⟨hpruned.intact, settled_protect ha hregrant hpruned.swept⟩
  · rw [protect_eq_unmap s a length (Bool.eq_false_iff.mpr ho)]
    exact unmap_repeats hi hs hun hp hacc

theorem map_repeats (hok : (s.map a length o physical).outcome m = .ok changed)
    (hp : ((s.map a length o physical).final ((s.map a length o physical).final m)).Placed
      A.codec) : (s.map a length o physical).RepeatsIdly m := by
  have hacc : s.Accepts a length := Change.accepts (.map a length o physical) hok
  have hsplit := hi.split s hs
  have hp₁ := (Change.map a length o physical).placed hs hsplit hun hp
  by_cases ho : o.access.any = true
  · obtain ⟨stop, hb, hm, ha⟩ := hacc.exists_stop
    have hedit := hsplit.editable hun ha hm.stop_le
    have hnorm := MapOptions.any_normalized ho
    rcases map_cases hb ho physical with hthrow | hwalk
    · rw [hthrow] at hok
      cases hok
    · rw [hwalk] at hok hp hp₁ ⊢
      obtain ⟨hi₁, -, hmap, -⟩ :=
        (extend_triple hs hedit ha hnorm physical m).of_ok ⟨rfl, hi⟩ hp₁ hok
      obtain ⟨hout, hfinal⟩ := change_still hi₁ hs hedit ha
        (fun _ _ _ _ _ => map_leaves hnorm) (settled_map hi₁ hs ha hmap) hp
      exact ⟨⟨changed, hok⟩, hout, hfinal⟩
  · have hp₀ := (Change.map a length o physical).placed hs hsplit hun hp₁
    rw [map_eq_unmap s a length (Bool.eq_false_iff.mpr ho)]
    exact unmap_repeats hi hs hun hp₀ hacc

end AddressSpace

/-! ## New permissions for what was just mapped -/

/-- Memories that differ in leaves only are the same if the spaces show the same leaves in both,
and arrays that are not live hold the same. -/
theorem Memory.Alike.eq_of_leaves (h : m.Alike A m') (hi : Intact S m)
    (hleaf : ∀ t ∈ S, ∀ y, IsPage y → t.leafAt m' y = t.leafAt m y)
    (hdead : ∀ a, a ∉ m.live → ∀ i, m'.entry a i = m.entry a i) : m' = m := by
  refine h.books.eq fun a i => ?_
  by_cases ha : a ∈ m.live
  swap
  · exact hdead a ha i
  obtain ⟨t, ht, p, ho⟩ := (hi.live_iff a).mp ha
  -- There are leaves in the lowest arrays only, where each slot is that of a page.
  rcases Nat.lt_or_eq_of_le ho.length_le with hlt | hlen
  · refine (h.entry a i).resolve_right ?_
    rintro ⟨⟨b, o, hl⟩, -⟩
    rcases hi.pointers t ht p a ho hlt i with h0 | ⟨d, hd⟩
    · have hvalid := hl.isValid A.lawful
      rw [h0, A.lawful.isValid_zero] at hvalid
      cases hvalid
    · cases (hl.isTable A.lawful).symm.trans (hd.isTable A.lawful)
  · obtain ⟨y, hy, hpath, hindex⟩ := exists_page_at hlen i
    have hsame := hleaf t ht y hy
    rwa [leafAt, leafAt, hpath, h.arrayAt_eq, ho.arrayAt_eq, hindex] at hsame

theorem Visitor.shadows_map (ho : o.access.any = true) (ho' : o'.access.any = true)
    (start : Word) (physical : PhysicalAddress) :
    (Visitor.map A.codec start physical o).Shadows A (Visitor.map A.codec start physical o') where
  allocates := rfl
  allocates' := rfl
  visit := by
    intro x w w' r r' u hu
    obtain ⟨leaf, hleaf, rfl⟩ := map_visit ho hu
    obtain ⟨leaf', hwith, hleaf'⟩ := leafWith_of_fits ho' hleaf.2.1
      (EntryCodec.compose_eq_ok_iff.mp hleaf.2.2).1
    have hu' : (Visitor.map A.codec start physical o').visit x w' r' = .ok
        { entry := some leaf'
          result := r' || (A.codec.isValid w' &&
            (A.codec.address w' != ⟨x + (physical.word - start)⟩ || A.codec.options w' != o')) } := by
      simp only [Visitor.map, hwith]
      rfl
    exact ⟨_, leaf, leaf', hu', rfl, rfl, rfl, ⟨_, o, hleaf⟩, _, o', hleaf'⟩

namespace AddressSpace

section Instead

variable {distance : Word} {m₁ m₂ : Memory}

theorem leafAt_eq_of_regranted (hs : s ∈ S) (hi₂ : Intact S m₂)
    (hf : Framed S s start stop m m₁) (hf₂ : Framed S s start stop m₁ m₂)
    (hf' : Framed S s start stop m m')
    (hmap : MappedUpTo A.codec o distance start (s.leafAt m) (pageEnd stop) (s.leafAt m₁))
    (hregrant : RegrantedUpTo A.codec o'.normalized start (s.leafAt m₁) (pageEnd stop)
      (s.leafAt m₂))
    (hmap' : MappedUpTo A.codec o'.normalized distance start (s.leafAt m) (pageEnd stop)
      (s.leafAt m')) {t : AddressSpace A} (ht : t ∈ S) {y : Word} (hy : IsPage y) :
    t.leafAt m' y = t.leafAt m₂ y := by
  by_cases hin : t = s ∧ Covers start stop y
  · obtain ⟨rfl, hle, hlt⟩ := hin
    have hold := hmap y hy
    have hnew := hregrant y hy
    have hmapped := hmap' y hy
    rw [if_pos ⟨hle, hlt⟩] at hold hnew hmapped
    have hvalid := hold.isValid A.lawful
    have hleaf : A.codec.IsLeaf (t.leafAt m₂ y) := by
      refine (hi₂.leafAt_zero_or_leaf hs y).resolve_left fun h0 => ?_
      rw [← hnew.isValid_eq, h0, A.lawful.isValid_zero] at hvalid
      cases hvalid
    apply hleaf.eq ⟨_, _, hmapped⟩
    · rw [hmapped.address_eq A.lawful, hnew.address_eq hvalid, hold.address_eq A.lawful]
    · rw [hmapped.options_eq A.lawful, hnew.options_eq hvalid, MapOptions.normalized_normalized]
  · have hcanonical := hy.canonical
    rw [hf'.leafAt_eq ht hcanonical hin, hf₂.leafAt_eq ht hcanonical hin,
      hf.leafAt_eq ht hcanonical hin]

/-- Mapping and then changing the permissions leaves what mapping with the new ones leaves. -/
theorem change_instead (hi : Intact S m) (hs : s ∈ S) (he : Editable S s start stop)
    (ha : Accepted start stop) (ho : o.access.any = true) (ho' : o'.access.any = true) :
    let map := s.change (Visitor.map A.codec start physical o) start stop false
    let map' := s.change (Visitor.map A.codec start physical o'.normalized) start stop false
    let protect := s.change (Visitor.protect A.codec o'.normalized) start stop false
    map.outcome m = .ok changed → (map.final m).Placed A.codec → (map'.final m).Placed A.codec →
    (∃ r, protect.outcome (map.final m) = .ok r) ∧ (∃ r, map'.outcome m = .ok r) ∧
      protect.final (map.final m) = map'.final m := by
  intro map map' protect hok hp hp'
  have hnorm' := MapOptions.any_normalized ho'
  have hscope {o : MapOptions} (ho : o.access.any = true) :
      Scope S s ⟨A.codec, Visitor.map A.codec start physical o, true, stop⟩ start :=
    ⟨rfl, hs, ha, fun _ _ _ _ _ => map_leaves ho, Or.inr he⟩
  have hscope₂ : Scope S s ⟨A.codec, Visitor.protect A.codec o'.normalized, true, stop⟩ start :=
    ⟨rfl, hs, ha, fun _ _ _ _ _ => protect_leaves hnorm', Or.inr he⟩
  have hsweeps {o : MapOptions} (ho : o.access.any = true) :=
    (Visitor.divides_map (A := A) ho start physical).sweeps
  -- All three memories have the same arrays in the same places.
  obtain ⟨⟨r', hok'⟩, halike⟩ := range_together (hscope ho) (hscope hnorm') (hsweeps ho)
    (hsweeps hnorm') (Visitor.shadows_map ho hnorm' start physical) hi hp hp' hok
  obtain ⟨hi₁, hf, hmap, -⟩ :=
    (extend_triple hs he ha ho physical m).of_ok ⟨rfl, hi⟩ hp hok
  obtain ⟨-, hf', hmap', -⟩ :=
    (extend_triple hs he ha hnorm' physical m).of_ok ⟨rfl, hi⟩ hp' hok'
  have hsupply := leaves_change (v := Visitor.protect A.codec o'.normalized) rfl s start stop false
  obtain ⟨r, hout, hpruned, hregrant⟩ :=
    (regrant_triple hs he ha ho' (map.final m)).returns hsupply ⟨rfl, hi₁⟩ hp
  refine ⟨⟨r, hout⟩, ⟨r', hok'⟩, ?_⟩
  obtain ⟨halike₂, hdead₂⟩ := range_alike hscope₂ rfl
    (fun _ _ _ _ _ => protect_isLeaf hnorm')
    (fun x hx => (hmap.isLeafOf ha hx).isValid A.lawful) hi₁ false
    (hp.of_supply (hsupply.final_eq _))
  have hdead := range_undisturbed (hscope ho) rfl (hsweeps ho) hi false hp
  have hdead' := range_undisturbed (hscope hnorm') rfl (hsweeps hnorm') hi false hp'
  symm
  apply (halike₂.symm.trans halike).eq_of_leaves hpruned.intact
  · exact fun t ht y hy =>
      leafAt_eq_of_regranted hs hpruned.intact hf hpruned.framed hf' hmap hregrant hmap' ht hy
  · -- None of the three walks has written to an array that is not live.
    intro b hb j
    have hb₁ : b ∉ (map.final m).live := halike₂.books.live ▸ hb
    have hb' : b ∉ (map'.final m).live := halike.books.live.symm ▸ hb₁
    calc (map'.final m).entry b j
      _ = m.entry b j := hdead' b hb' j
      _ = (map.final m).entry b j := (hdead b hb₁ j).symm
      _ = (protect.final (map.final m)).entry b j := (hdead₂ b hb j).symm

end Instead

end AddressSpace

/-- The first call and then the second one leave the memory that another call leaves in place of
the two. -/
structure Action.AmountTo (first second other : Action Memory Bool) (m : Memory) : Prop where
  returns : ∃ changed, second.outcome (first.final m) = .ok changed
  other_returns : ∃ changed, other.outcome m = .ok changed
  final : second.final (first.final m) = other.final m

namespace AddressSpace

theorem map_protect_amountTo (hi : Intact S m) (hs : s ∈ S) (hun : Unshared S s)
    (ho : o.access.any = true) (ho' : o'.access.any = true)
    (hok : (s.map a length o physical).outcome m = .ok changed)
    (hp : ((s.map a length o physical).final m).Placed A.codec)
    (hp' : ((s.map a length o' physical).final m).Placed A.codec) :
    Action.AmountTo (s.map a length o physical) (s.protect a length o')
      (s.map a length o' physical) m := by
  have hacc : s.Accepts a length := Change.accepts (.map a length o physical) hok
  obtain ⟨stop, hb, hm, ha⟩ := hacc.exists_stop
  have hedit := (hi.split s hs).editable hun ha hm.stop_le
  rw [map_eq hb ho] at hok hp ⊢
  rw [map_eq hb ho'] at hp' ⊢
  rw [protect_eq hb ho']
  split at hok
  · next hbound =>
    rw [if_pos hbound] at hp hp' ⊢
    obtain ⟨hprotect, hother, hfinal⟩ :=
      change_instead hi hs hedit ha (MapOptions.any_normalized ho) ho' hok hp hp'
    rw [if_pos hbound]
    exact ⟨hprotect, hother, hfinal⟩
  · cases hok

end AddressSpace

namespace Realm

variable {R : Realm A}

/-- A change that returned reports nothing and changes nothing when it is made again, also if no
array is left. Mapping a range and then changing its permissions leaves the memory that mapping it
with these permissions leaves. -/
theorem Reachable.repeats_changes (h : Reachable R) (hp : R.memory.Placed A.codec)
    (hs : s ∈ R.spaces) (hun : Unshared R.spaces s) :
    (∀ o physical, let map := s.map a length o physical
      (∃ changed, map.outcome R.memory = .ok changed) →
      (map.final (map.final R.memory)).Placed A.codec → map.RepeatsIdly R.memory) ∧
    (s.Accepts a length → (s.unmap a length).RepeatsIdly R.memory ∧
      ∀ o, (s.protect a length o).RepeatsIdly R.memory) ∧
    ∀ o o' physical, o.access.any = true → o'.access.any = true →
      let map := s.map a length o physical
      let map' := s.map a length o' physical
      (∃ changed, map.outcome R.memory = .ok changed) → (map.final R.memory).Placed A.codec →
      (map'.final R.memory).Placed A.codec →
      Action.AmountTo map (s.protect a length o') map' R.memory := by
  have hi := (h.sound hp).intact
  refine ⟨?_, fun hacc => ⟨?_, fun o => ?_⟩, ?_⟩
  · rintro o physical map ⟨changed, hok⟩ hagain
    exact map_repeats hi hs hun hok hagain
  · exact unmap_repeats hi hs hun hp hacc
  · exact protect_repeats hi hs hun hp hacc o
  · rintro o o' physical ho ho' map map' ⟨changed, hok⟩ hplaced hplaced'
    exact map_protect_amountTo hi hs hun ho ho' hok hplaced hplaced'

/-- No array is left, and a second page is mapped, mapped again, and made read-only. -/
theorem repeats_changes_crowded :
    let s := firstSpace .riscv64 0x1000000
    let m := crowded.memory
    let map := s.map ⟨0x6000⟩ 0x1000 (.forUser .readWrite) ⟨0x90000000⟩
    let map' := s.map ⟨0x6000⟩ 0x1000 (.forUser .readOnly) ⟨0x90000000⟩
    let protect := s.protect ⟨0x6000⟩ 0x1000 (.forUser .readOnly)
    let unmap := s.unmap ⟨0x5000⟩ 0x1000
    m.limitReached = true ∧
    (map.outcome (map.final m) = .ok false ∧ map.final (map.final m) = map.final m) ∧
    (unmap.outcome (unmap.final m) = .ok false ∧ unmap.final (unmap.final m) = unmap.final m) ∧
    protect.final (map.final m) = map'.final m := by
  intro s m map map' protect unmap
  obtain ⟨hreach, hbefore⟩ := reachable_crowded
  have hun : Unshared crowded.spaces s := unshared_single .riscv64 0x1000000
  have hp : crowded.memory.Placed Sv48.codec :=
    placed_startingAt (A := .riscv64) hbefore (by decide) (by decide +kernel)
  obtain ⟨hmapped, hmap⟩ := hreach.change List.mem_cons_self hun
    (.map ⟨0x6000⟩ 0x1000 (.forUser .readWrite) ⟨0x90000000⟩)
  obtain ⟨-, hagain⟩ := hmapped.change List.mem_cons_self hun
    (.map ⟨0x6000⟩ 0x1000 (.forUser .readWrite) ⟨0x90000000⟩)
  obtain ⟨-, hother⟩ := hreach.change List.mem_cons_self hun
    (.map ⟨0x6000⟩ 0x1000 (.forUser .readOnly) ⟨0x90000000⟩)
  have hok : map.outcome m = .ok false := by decide +kernel
  have hmapRepeats : map.RepeatsIdly m :=
    (hreach.repeats_changes hp List.mem_cons_self hun).1 (.forUser .readWrite) ⟨0x90000000⟩
      ⟨_, hok⟩ (placed_startingAt ((hbefore.trans hmap).trans hagain) (by decide)
        (by decide +kernel))
  have hunmapRepeats : unmap.RepeatsIdly m :=
    ((hreach.repeats_changes hp List.mem_cons_self hun).2.1
      ⟨0x5000, 0x6000, by decide, by decide⟩).1
  have hinstead : Action.AmountTo map protect map' m :=
    (hreach.repeats_changes hp List.mem_cons_self hun).2.2 (.forUser .readWrite)
      (.forUser .readOnly) ⟨0x90000000⟩ (by decide) (by decide) ⟨_, hok⟩
      (placed_startingAt (hbefore.trans hmap) (by decide) (by decide +kernel))
      (placed_startingAt (hbefore.trans hother) (by decide) (by decide +kernel))
  exact ⟨by decide +kernel, ⟨hmapRepeats.outcome, hmapRepeats.final⟩,
    ⟨hunmapRepeats.outcome, hunmapRepeats.final⟩, hinstead.final⟩

end Realm

end Sandbox
