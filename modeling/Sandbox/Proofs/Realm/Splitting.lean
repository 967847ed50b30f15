import Sandbox.Proofs.Realm.Acceptance
import Sandbox.Proofs.Realm.Shortage
import Sandbox.Proofs.Walk.Parts

/-! # Changes in two parts

A change of a range leaves the memory that a change of its first pages and then one of the rest
leave, down to the last entry and to the order of the arrays that wait in the pool. It reports
what one of the two reports, and runs out of memory where one of them does.
-/

namespace Sandbox

open AddressSpace Walk

variable {A : Architecture} {S : List (AddressSpace A)} {s : AddressSpace A} {m : Memory}
  {a : VirtualAddress} {length k mid stop : Word} {o : MapOptions} {physical : PhysicalAddress}

/-! ## Visitors that may be interrupted -/

structure Visitor.Divides (A : Architecture) (v : Visitor Bool) : Prop where
  sweeps : v.Sweeps A
  gathers : v.Gathers
  leaves : ∀ x w r u w', v.visit x w r = .ok u → u.entry = some w' → w' = 0 ∨ A.codec.IsLeaf w'

namespace Visitor

theorem divides_unmap (A : Architecture) : Visitor.unmap.Divides A where
  sweeps := ⟨fun hv => by cases hv; rfl, nofun⟩
  gathers x w r r' := by
    simp only [Visitor.unmap, pure, Except.pure, Except.map, Bool.or_true]
  leaves _ _ _ _ _ := unmap_leaves

theorem divides_map (ho : o.access.any = true) (start : Word) (physical : PhysicalAddress) :
    (Visitor.map A.codec start physical o).Divides A where
  sweeps := by
    constructor
    · intro x w r u hv
      obtain ⟨leaf, -, rfl⟩ := map_visit ho hv
      rfl
    · intro _ x w r u hv
      obtain ⟨leaf, hleaf, rfl⟩ := map_visit ho hv
      exact ⟨leaf, rfl, hleaf.isValid A.lawful⟩
  gathers x w r r' := by
    simp only [Visitor.map]
    cases A.codec.leafWith (A.codec.bits? o) ⟨x + (physical.word - start)⟩ with
    | error e => rfl
    | ok leaf => simp [pure, Except.pure, Except.map, bind, Except.bind, Bool.or_assoc]
  leaves _ _ _ _ _ := map_leaves ho

theorem divides_protect (ho : o.access.any = true) :
    (Visitor.protect A.codec o).Divides A where
  sweeps := by
    refine ⟨?_, nofun⟩
    intro x w r u hv
    rcases protect_cases ho hv with ⟨-, rfl⟩ | ⟨-, leaf, -, rfl⟩ <;> rfl
  gathers x w r r' := by
    simp only [Visitor.protect]
    split
    · rfl
    · cases A.codec.leafWith (A.codec.bits? o) (A.codec.address w) with
      | error e => rfl
      | ok leaf => simp [pure, Except.pure, Except.map, bind, Except.bind]
  leaves _ _ _ _ _ := protect_leaves ho

end Visitor

/-! ## Ranges in two parts -/

namespace AddressSpace

/-- A range with a page in it, from which the second part of the range starts. -/
structure Cut (s : AddressSpace A) (a : VirtualAddress) (length k mid stop : Word) : Prop where
  whole : s.Mutable a length a.word stop
  first : s.Mutable a k a.word mid
  rest : s.Mutable ⟨a.word + k⟩ (length - k) mid stop
  accepted : Accepted a.word stop
  accepted_first : Accepted a.word mid
  accepted_rest : Accepted mid stop
  aligned : mid.toNat % 4096 = 0
  lt : mid.toNat < stop.toNat

theorem Admits.first (h : s.Admits a length) (hpos : 0 < k.toNat)
    (hlt : k.toNat < length.toNat) : s.Admits a k := by
  have hle := h.stop_le
  refine ⟨⟨h.aligned, by omega, ?_, fun x hx hxk => h.canonical x hx (by omega)⟩, h.frozen,
    fun u hu => (Nat.add_le_add_left hlt.le _).trans (h.below u hu)⟩
  rintro rfl
  exact absurd hpos (Nat.lt_irrefl _)

theorem Admits.rest (h : s.Admits a length) (hk : k.toNat % 4096 = 0)
    (hlt : k.toNat < length.toNat) : s.Admits ⟨a.word + k⟩ (length - k) := by
  have hle := h.stop_le
  have haligned := h.aligned
  have hmax := toNat_maxEnd
  have hstart : (a.word + k).toNat = a.word.toNat + k.toNat := by
    rw [BitVec.toNat_add, Nat.mod_eq_of_lt (by omega)]
  have hlen : (length - k).toNat = length.toNat - k.toNat :=
    BitVec.toNat_sub_of_le (BitVec.le_def.mpr hlt.le)
  refine ⟨⟨?_, ?_, fun hzero => ?_, fun x hx hxk => ?_⟩, h.frozen, fun u hu => ?_⟩
  · dsimp only
    omega
  · dsimp only
    omega
  · rw [hzero] at hlen
    change 0 = _ at hlen
    omega
  · dsimp only at hx hxk
    exact h.canonical x (by omega) (by omega)
  · have hbelow := h.below u hu
    dsimp only
    omega

theorem Accepts.cut (h : s.Accepts a length) (hk : k.toNat % 4096 = 0) (hpos : 0 < k.toNat)
    (hlt : k.toNat < length.toNat) : ∃ mid stop, s.Cut a length k mid stop := by
  have hadmits := accepts_iff.mp h
  obtain ⟨stop, -, hm, ha⟩ := h.exists_stop
  obtain ⟨mid, -, hm', ha'⟩ := (accepts_iff.mpr (hadmits.first hpos hlt)).exists_stop
  obtain ⟨last, -, hm'', ha''⟩ := (accepts_iff.mpr (hadmits.rest hk hlt)).exists_stop
  have hstop := hm.stop_eq
  have hmid := hm'.stop_eq
  have hlast := hm''.stop_eq
  have hword := stop.isLt
  have hlen : (length - k).toNat = length.toNat - k.toNat :=
    BitVec.toNat_sub_of_le (BitVec.le_def.mpr hlt.le)
  have hmideq : mid = a.word + k := by
    apply BitVec.eq_of_toNat_eq
    rw [hmid, BitVec.toNat_add, Nat.mod_eq_of_lt (by omega)]
  obtain rfl : last = stop := by
    apply BitVec.eq_of_toNat_eq
    dsimp only at hlast
    rw [← hmideq] at hlast
    omega
  subst hmideq
  have haligned := ha.aligned
  exact ⟨_, _, hm, hm', hm'', ha, ha', ha'', by omega, by omega⟩

theorem change_splits {v : Visitor Bool} (hi : Intact S m) (hs : s ∈ S) (hun : Unshared S s)
    (hcut : s.Cut a length k mid stop) (hv : v.Divides A)
    (hp : ((s.change v a.word stop false).final m).Placed A.codec)
    (hp' : ((s.change v a.word mid false).final m).Placed A.codec)
    (hp'' : ∀ r, (s.change v a.word mid false).outcome m = .ok r →
      ((s.change v mid stop false).final ((s.change v a.word mid false).final m)).Placed A.codec) :
    Splits (s.change v a.word stop false) (s.change v a.word mid false)
      (s.change v mid stop false) m := by
  have hedit {start stop : Word} (ha : Accepted start stop)
      (hbelow : ∀ u, s.upper = some u → stop.toNat ≤ u.start.toNat) :
      Scope S s ⟨A.codec, v, true, stop⟩ start :=
    ⟨rfl, hs, ha, hv.leaves, Or.inr ((hi.split s hs).editable hun ha hbelow)⟩
  exact range_splits (hedit hcut.accepted hcut.whole.stop_le)
    (hedit hcut.accepted_first hcut.first.stop_le) (hedit hcut.accepted_rest hcut.rest.stop_le)
    hcut.aligned hcut.lt hv.sweeps hv.gathers hi hp hp' hp''

/-! ## Calls in two parts -/

theorem FramesFit.first {c : EntryCodec} (h : FramesFit c physical length)
    (hlt : k.toNat < length.toNat) : FramesFit c physical k := by
  intro i hi
  apply h i
  unfold pageCount at hi ⊢
  omega

theorem FramesFit.rest {c : EntryCodec} (h : FramesFit c physical length)
    (hk : k.toNat % 4096 = 0) (hlt : k.toNat < length.toNat) :
    FramesFit c ⟨physical.word + k⟩ (length - k) := by
  intro i hi
  have hlen : (length - k).toNat = length.toNat - k.toNat :=
    BitVec.toNat_sub_of_le (BitVec.le_def.mpr hlt.le)
  have hword := length.isLt
  have hoffset : physical.word + k + BitVec.ofNat 64 (4096 * i) =
      physical.word + BitVec.ofNat 64 (4096 * (k.toNat / 4096 + i)) := by
    have hpage : BitVec.ofNat 64 (4096 * (k.toNat / 4096)) = k := by
      apply BitVec.eq_of_toNat_eq
      rw [BitVec.toNat_ofNat, Nat.mod_eq_of_lt (by omega)]
      omega
    rw [Nat.mul_add, BitVec.ofNat_add, hpage, BitVec.add_assoc]
  dsimp only
  rw [hoffset]
  apply h
  unfold pageCount at hi ⊢
  omega

variable (hi : Intact S m) (hs : s ∈ S) (hun : Unshared S s)

include hi hs hun

theorem unmap_splits (hp : m.Placed A.codec) (hcut : s.Cut a length k mid stop) :
    Splits (s.unmap a length) (s.unmap a k) (s.unmap ⟨a.word + k⟩ (length - k)) m := by
  rw [unmap_eq hcut.whole.bounds_eq, unmap_eq hcut.first.bounds_eq,
    unmap_eq hcut.rest.bounds_eq]
  have hplaced {m : Memory} (hp : m.Placed A.codec) (start stop : Word) :
      ((s.change Visitor.unmap start stop false).final m).Placed A.codec :=
    hp.of_supply ((leaves_change rfl s start stop false).final_eq m)
  exact change_splits hi hs hun hcut (Visitor.divides_unmap A) (hplaced hp _ _) (hplaced hp _ _)
    fun _ _ => hplaced (hplaced hp _ _) _ _

theorem protect_splits (hp : m.Placed A.codec) (hcut : s.Cut a length k mid stop)
    (o : MapOptions) : Splits (s.protect a length o) (s.protect a k o)
      (s.protect ⟨a.word + k⟩ (length - k) o) m := by
  by_cases ho : o.access.any = true
  · rw [protect_eq hcut.whole.bounds_eq ho, protect_eq hcut.first.bounds_eq ho,
      protect_eq hcut.rest.bounds_eq ho]
    have hplaced {m : Memory} (hp : m.Placed A.codec) (start stop : Word) :
        ((s.change (Visitor.protect A.codec o.normalized) start stop false).final m).Placed
          A.codec :=
      hp.of_supply ((leaves_change rfl s start stop false).final_eq m)
    exact change_splits hi hs hun hcut (Visitor.divides_protect (MapOptions.any_normalized ho))
      (hplaced hp _ _) (hplaced hp _ _) fun _ _ => hplaced (hplaced hp _ _) _ _
  · have hnone := Bool.eq_false_iff.mpr ho
    rw [protect_eq_unmap s a length hnone, protect_eq_unmap s a k hnone,
      protect_eq_unmap s ⟨a.word + k⟩ (length - k) hnone]
    exact unmap_splits hi hs hun hp hcut

theorem map_splits (hcut : s.Cut a length k mid stop) (hfit : FramesFit A.codec physical length)
    (hk : k.toNat % 4096 = 0) (hlt : k.toNat < length.toNat)
    (hp : ((s.map a length o physical).final m).Placed A.codec)
    (hp' : ((s.map a k o physical).final m).Placed A.codec)
    (hp'' : ∀ r, (s.map a k o physical).outcome m = .ok r →
      ((s.map ⟨a.word + k⟩ (length - k) o ⟨physical.word + k⟩).final
        ((s.map a k o physical).final m)).Placed A.codec) :
    Splits (s.map a length o physical) (s.map a k o physical)
      (s.map ⟨a.word + k⟩ (length - k) o ⟨physical.word + k⟩) m := by
  have hp₀ := (Change.map a length o physical).placed hs (hi.split s hs) hun hp
  by_cases ho : o.access.any = true
  · -- Both parts are mapped at one distance, so by the same visitor.
    have hdistance : physical.word + k - (a.word + k) = physical.word - a.word := by bv_omega
    have hwhole := map_eq_change hcut.whole.stop_eq hcut.accepted hcut.whole.bounds_eq ho hfit
    have hfirst := map_eq_change hcut.first.stop_eq hcut.accepted_first hcut.first.bounds_eq ho
      (hfit.first hlt)
    have hrest : s.map ⟨a.word + k⟩ (length - k) o ⟨physical.word + k⟩ =
        s.change (Visitor.map A.codec a.word physical o.normalized) mid stop false := by
      obtain rfl := hcut.rest.start_eq
      refine (map_eq_change hcut.rest.stop_eq hcut.accepted_rest hcut.rest.bounds_eq ho
        (hfit.rest hk hlt)).trans ?_
      simp only [Visitor.map, hdistance]
    rw [hrest] at hp'' ⊢
    rw [hfirst] at hp' hp'' ⊢
    rw [hwhole] at hp ⊢
    exact change_splits hi hs hun hcut (Visitor.divides_map (MapOptions.any_normalized ho) _ _)
      hp hp' hp''
  · have hnone := Bool.eq_false_iff.mpr ho
    rw [map_eq_unmap s a length hnone, map_eq_unmap s a k hnone,
      map_eq_unmap s ⟨a.word + k⟩ (length - k) hnone]
    exact unmap_splits hi hs hun hp₀ hcut

theorem map_outcome (hacc : s.Accepts a length) (hfit : FramesFit A.codec physical length)
    (o : MapOptions) (hp : ((s.map a length o physical).final m).Placed A.codec) :
    (∃ changed, (s.map a length o physical).outcome m = .ok changed) ∨
      (s.map a length o physical).outcome m = .error (.refusal .outOfMemory) := by
  by_cases ho : o.access.any = true
  · rcases map_returns_or_cutShort hi hs hun ho hacc hfit hp with ⟨-, hok⟩ | ⟨-, hout, -⟩
    · exact Or.inl hok
    · exact Or.inr hout
  · have hp₀ := (Change.map a length o physical).placed hs (hi.split s hs) hun hp
    rw [map_eq_unmap s a length (Bool.eq_false_iff.mpr ho)]
    exact Or.inl (unmap_amends hi hs hun hp₀ hacc).returns

end AddressSpace

structure SplitsSafely (whole first rest : Action Memory Bool) (m : Memory) : Prop
    extends Splits whole first rest m where
  returns : ∃ r₁ r₂, first.outcome m = .ok r₁ ∧ rest.outcome (first.final m) = .ok r₂ ∧
    whole.outcome m = .ok (r₁ || r₂)

/-- The whole returns, or runs out of memory where one of its parts does. -/
structure SplitsAtLimit (whole first rest : Action Memory Bool) (m : Memory) : Prop
    extends Splits whole first rest m where
  outOfMemory_iff : whole.outcome m = .error (.refusal .outOfMemory) ↔
    first.outcome m = .error (.refusal .outOfMemory) ∨
      ∃ r, first.outcome m = .ok r ∧
        rest.outcome (first.final m) = .error (.refusal .outOfMemory)
  returns : whole.outcome m ≠ .error (.refusal .outOfMemory) →
    ∃ r₁ r₂, first.outcome m = .ok r₁ ∧ rest.outcome (first.final m) = .ok r₂ ∧
      whole.outcome m = .ok (r₁ || r₂)

section

variable {whole first rest : Action Memory Bool}

theorem Walk.Splits.safely (h : Splits whole first rest m) {r : Bool}
    (hok : whole.outcome m = .ok r) : SplitsSafely whole first rest m := by
  obtain ⟨r₁, r₂, h₁, h₂, rfl⟩ := h.ok_iff.mp hok
  exact ⟨h, r₁, r₂, h₁, h₂, hok⟩

theorem Walk.Splits.atLimit (h : Splits whole first rest m)
    (hout : (∃ r, whole.outcome m = .ok r) ∨
      whole.outcome m = .error (.refusal .outOfMemory)) : SplitsAtLimit whole first rest m := by
  refine ⟨h, h.error_iff, fun hne => ?_⟩
  obtain ⟨r, hok⟩ := hout.resolve_right hne
  exact (h.safely hok).returns

end

namespace Realm

variable {R : Realm A}

/-- A change of a range is the change of its first pages and then that of the rest, in its result
and in all that it leaves in memory, also when memory runs out on the way. -/
theorem Reachable.splits_changes (h : Reachable R) (hp : R.memory.Placed A.codec)
    (hs : s ∈ R.spaces) (hun : Unshared R.spaces s) (hacc : s.Accepts a length)
    (hk : k.toNat % 4096 = 0) (hpos : 0 < k.toNat) (hlt : k.toNat < length.toNat) :
    (∀ o physical, FramesFit A.codec physical length →
      let whole := s.map a length o physical
      let first := s.map a k o physical
      let rest := s.map ⟨a.word + k⟩ (length - k) o ⟨physical.word + k⟩
      (whole.final R.memory).Placed A.codec → (first.final R.memory).Placed A.codec →
      (∀ r, first.outcome R.memory = .ok r →
        (rest.final (first.final R.memory)).Placed A.codec) →
      SplitsAtLimit whole first rest R.memory) ∧
    SplitsSafely (s.unmap a length) (s.unmap a k) (s.unmap ⟨a.word + k⟩ (length - k)) R.memory ∧
    ∀ o, SplitsSafely (s.protect a length o) (s.protect a k o)
      (s.protect ⟨a.word + k⟩ (length - k) o) R.memory := by
  have hi := (h.sound hp).intact
  obtain ⟨mid, stop, hcut⟩ := hacc.cut hk hpos hlt
  refine ⟨?_, ?_, fun o => ?_⟩
  · intro o physical hfit whole first rest hwhole hfirst hrest
    exact (map_splits hi hs hun hcut hfit hk hlt hwhole hfirst hrest).atLimit
      (map_outcome hi hs hun hacc hfit o hwhole)
  · obtain ⟨changed, hok⟩ := (unmap_guarded hi hs hp hun a length).returns (accepts_iff.mp hacc)
    exact (unmap_splits hi hs hun hp hcut).safely hok
  · obtain ⟨changed, hok⟩ :=
      (protect_guarded hi hs hp hun a length o).returns (accepts_iff.mp hacc)
    exact (protect_splits hi hs hun hp hcut o).safely hok

/-- The block of the second page lacks an array, and there is none left: in either case the first
page is mapped and the second one is not. Of two pages the first is unmapped, and the arrays that
become empty are given back before the second page is seen, or afterwards. -/
theorem splits_changes_crowded :
    let s := firstSpace .riscv64 0x1000000
    let m := crowded.memory
    let map := s.map ⟨0x1ff000⟩ 0x2000 (.forUser .readWrite) ⟨0x90000000⟩
    let first := s.map ⟨0x1ff000⟩ 0x1000 (.forUser .readWrite) ⟨0x90000000⟩
    let rest := s.map ⟨0x1ff000 + 0x1000⟩ (0x2000 - 0x1000) (.forUser .readWrite)
      ⟨0x90000000 + 0x1000⟩
    let unmap := s.unmap ⟨0x5000⟩ 0x2000
    (first.outcome m = .ok false ∧ map.outcome m = .error (.refusal .outOfMemory) ∧
      map.final m = rest.final (first.final m)) ∧
    (∃ changed, unmap.outcome m = .ok changed) ∧
    unmap.final m = (s.unmap ⟨0x5000 + 0x1000⟩ (0x2000 - 0x1000)).final
      ((s.unmap ⟨0x5000⟩ 0x1000).final m) := by
  intro s m map first rest unmap
  obtain ⟨hreach, hbefore⟩ := reachable_crowded
  have hun : Unshared crowded.spaces s := unshared_single .riscv64 0x1000000
  have hsplit {a : VirtualAddress} (hacc : s.Accepts a 0x2000) :=
    hreach.splits_changes (placed_startingAt hbefore (by decide) (by decide +kernel))
      List.mem_cons_self hun hacc (k := 0x1000) (by decide) (by decide) (by decide)
  obtain ⟨-, hwhole⟩ := hreach.change List.mem_cons_self hun
    (.map ⟨0x1ff000⟩ 0x2000 (.forUser .readWrite) ⟨0x90000000⟩)
  obtain ⟨hmid, hfirst⟩ := hreach.change List.mem_cons_self hun
    (.map ⟨0x1ff000⟩ 0x1000 (.forUser .readWrite) ⟨0x90000000⟩)
  obtain ⟨-, hrest⟩ := hmid.change List.mem_cons_self hun
    (.map ⟨0x1ff000 + 0x1000⟩ (0x2000 - 0x1000) (.forUser .readWrite) ⟨0x90000000 + 0x1000⟩)
  obtain ⟨hmap, -, -⟩ := hsplit (a := ⟨0x1ff000⟩) ⟨0x1ff000, 0x201000, by decide, by decide⟩
  have hlimit : SplitsAtLimit map first rest m :=
    hmap (.forUser .readWrite) ⟨0x90000000⟩ framesFit_pair
      (placed_startingAt (hbefore.trans hwhole) (by decide) (by decide +kernel))
      (placed_startingAt (hbefore.trans hfirst) (by decide) (by decide +kernel))
      fun _ _ => placed_startingAt ((hbefore.trans hfirst).trans hrest) (by decide)
        (by decide +kernel)
  obtain ⟨-, hunmap, -⟩ := hsplit (a := ⟨0x5000⟩) ⟨0x5000, 0x7000, by decide, by decide⟩
  have hok : first.outcome m = .ok false := by decide +kernel
  have hfull : rest.outcome (first.final m) = .error (.refusal .outOfMemory) := by decide +kernel
  obtain ⟨r₁, r₂, hcleared, -, hboth⟩ := hunmap.returns
  exact ⟨⟨hok, hlimit.outOfMemory_iff.mpr (Or.inr ⟨_, hok, hfull⟩), (hlimit.returned _ hok).2⟩,
    ⟨_, hboth⟩, (hunmap.returned _ hcleared).2⟩

end Realm

end Sandbox
