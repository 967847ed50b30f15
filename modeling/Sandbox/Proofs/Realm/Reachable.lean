import Sandbox.Proofs.Space.Teardown

/-! # Realms

A realm is one memory with the spaces that live in it. Spaces are created, changed, frozen
and dropped in any order, and each call may end in any way. While a space shares its upper
half with another, it is neither changed nor frozen nor dropped.
-/

namespace Sandbox

open AddressSpace Walk

structure Realm (A : Architecture) where
  memory : Memory
  spaces : List (AddressSpace A)

structure Memory.Pristine (m : Memory) : Prop where
  arrays : m.arrays = ∅
  live : m.live = ∅
  pool : m.pool = []
  fresh : m.fresh = 0

/-- Memory in which no array is live. Arrays that were given back may wait in the pool. -/
structure Memory.Idle (m : Memory) : Prop where
  books : m.Books
  live : m.live = ∅

theorem Memory.Pristine.idle {m : Memory} (h : m.Pristine) : m.Idle := by
  have hlive (a : PhysicalAddress) : a ∉ m.live := h.live ▸ Std.ExtTreeSet.not_mem_empty
  have hpool (a : PhysicalAddress) : a ∉ m.pool := h.pool ▸ List.not_mem_nil
  exact ⟨⟨fun a ha => absurd ha (hlive a), h.pool ▸ List.nodup_nil, fun a ha => absurd ha (hpool a),
    fun a ha => (ha.elim (hlive a) (hpool a)).elim⟩, h.live⟩

namespace Realm

variable {A : Architecture} {R R' : Realm A}

/-- One call, and the memory in which it ends. A new space is younger than all others. -/
inductive Step (R : Realm A) : Realm A → Prop
  | create {owner : OwnerId} {s : AddressSpace A}
      (hnew : ∀ t ∈ R.spaces, t.owner.number < owner.number)
      (hs : (AddressSpace.create A owner).outcome R.memory = .ok s) :
      Step R ⟨(AddressSpace.create A owner).final R.memory, s :: R.spaces⟩
  | createFailed {owner : OwnerId} {e : Stop}
      (hnew : ∀ t ∈ R.spaces, t.owner.number < owner.number)
      (he : (AddressSpace.create A owner).outcome R.memory = .error e) :
      Step R ⟨(AddressSpace.create A owner).final R.memory, R.spaces⟩
  | createAbove {base s : AddressSpace A} {start : VirtualAddress} {owner : OwnerId}
      (hbase : base ∈ R.spaces) (hnew : ∀ t ∈ R.spaces, t.owner.number < owner.number)
      (hs : (base.createAbove start owner).outcome R.memory = .ok s) :
      Step R ⟨(base.createAbove start owner).final R.memory, s :: R.spaces⟩
  | createAboveFailed {base : AddressSpace A} {start : VirtualAddress} {owner : OwnerId}
      {e : Stop} (hbase : base ∈ R.spaces) (hnew : ∀ t ∈ R.spaces, t.owner.number < owner.number)
      (he : (base.createAbove start owner).outcome R.memory = .error e) :
      Step R ⟨(base.createAbove start owner).final R.memory, R.spaces⟩
  | change {s : AddressSpace A} (hs : s ∈ R.spaces) (hun : Unshared R.spaces s) (ch : Change) :
      Step R ⟨(ch.run s).final R.memory, R.spaces⟩
  | freeze {s : AddressSpace A} (hs : s ∈ R.spaces) (hun : Unshared R.spaces s) :
      Step R ⟨R.memory, R.spaces.map fun t => if t = s then t.freeze else t⟩
  | drop {s : AddressSpace A} (hs : s ∈ R.spaces) (hun : Unshared R.spaces s) :
      Step R ⟨s.teardown.final R.memory, R.spaces.filter (· ≠ s)⟩

/-- Realms that calls lead to from a pristine memory. -/
inductive Reachable : Realm A → Prop
  | start {m : Memory} (h : m.Pristine) : Reachable ⟨m, []⟩
  | step {R R' : Realm A} (h : Reachable R) (hstep : Step R R') : Reachable R'

/-- The memory is intact, and the last page, which no walk reaches, is mapped nowhere. -/
structure Sound (R : Realm A) : Prop where
  intact : Intact R.spaces R.memory
  last : ∀ s ∈ R.spaces, ∀ y, IsPage y → maxEnd.toNat ≤ y.toNat → s.leafAt R.memory y = 0

theorem not_covers_last {y : Word} (hy : maxEnd.toNat ≤ y.toNat) : ¬ Covers 0 maxEnd y := by
  rintro ⟨-, hlt⟩
  rw [pageEnd_maxEnd] at hlt
  rw [toNat_maxEnd] at hy
  omega

/-! ## Each call keeps a realm sound -/

theorem Sound.kept {s : AddressSpace A} {m : Memory} (h : Sound R) (hk : Kept R.spaces s R.memory m) :
    Sound ⟨m, R.spaces⟩ := by
  refine ⟨hk.intact, fun t ht y hy hlast => ?_⟩
  rw [hk.framed.leafAt_eq ht hy.canonical fun hc => not_covers_last hlast hc.2]
  exact h.last t ht y hy hlast

theorem Sound.born {s : AddressSpace A} {m : Memory} (h : Sound R)
    (hb : Born R.spaces R.memory s m) : Sound ⟨m, s :: R.spaces⟩ := by
  refine ⟨hb.intact h.intact, fun t ht y hy hlast => ?_⟩
  rcases List.mem_cons.mp ht with rfl | ht
  · rcases hb.leafAt_new h.intact y with h0 | ⟨b, hbS, hleaf⟩
    · exact h0
    · rw [hleaf, h.last b hbS y hy hlast]
  · rw [(hb.untouched h.intact ht).leafAt_eq, h.last t ht y hy hlast]

theorem Sound.freeze (h : Sound R) (s : AddressSpace A) :
    Sound ⟨R.memory, R.spaces.map fun t => if t = s then t.freeze else t⟩ := by
  have hi := h.intact
  have hsame (t : AddressSpace A) : ∃ f : Bool,
      (if t = s then t.freeze else t) = { t with frozen := f } := by
    split
    · exact ⟨true, rfl⟩
    · exact ⟨t.frozen, rfl⟩
  have hmem {t : AddressSpace A} (ht : t ∈ R.spaces.map fun t => if t = s then t.freeze else t) :
      ∃ r ∈ R.spaces, (∃ f : Bool, t = { r with frozen := f }) ∧
        t = if r = s then r.freeze else r := by
    obtain ⟨r, hr, rfl⟩ := List.mem_map.mp ht
    exact ⟨r, hr, hsame r, rfl⟩
  refine ⟨?_, fun t ht => ?_⟩
  · constructor
    case owner_inj =>
      intro t ht r hr heq
      obtain ⟨t', ht', ⟨f, rfl⟩, heqt⟩ := hmem ht
      obtain ⟨r', hr', ⟨g, rfl⟩, heqr⟩ := hmem hr
      obtain rfl := hi.owner_inj t' ht' r' hr' heq
      rw [heqt, heqr]
    case split =>
      intro t ht
      obtain ⟨t', ht', ⟨f, rfl⟩, -⟩ := hmem ht
      exact hi.split t' ht'
    case base =>
      intro t ht u hu
      obtain ⟨t', ht', ⟨f, rfl⟩, -⟩ := hmem ht
      obtain ⟨b, hb, hbu, hlt, hcopy⟩ := hi.base t' ht' u hu
      obtain ⟨g, hg⟩ := hsame b
      refine ⟨_, List.mem_map_of_mem hb, ?_⟩
      rw [hg]
      exact ⟨hbu, hlt, hcopy⟩
    case live_iff =>
      intro a
      rw [hi.live_iff]
      constructor
      · rintro ⟨t, ht, p, ho⟩
        obtain ⟨f, hf⟩ := hsame t
        exact ⟨_, List.mem_map_of_mem ht, p, hf ▸ (owns_frozen_iff f).mpr ho⟩
      · rintro ⟨t, ht, p, ho⟩
        obtain ⟨t', ht', ⟨f, rfl⟩, -⟩ := hmem ht
        exact ⟨t', ht', p, (owns_frozen_iff f).mp ho⟩
    case unique =>
      intro t ht r hr p q a ho ho'
      obtain ⟨t', ht', ⟨f, rfl⟩, heqt⟩ := hmem ht
      obtain ⟨r', hr', ⟨g, rfl⟩, heqr⟩ := hmem hr
      obtain ⟨rfl, rfl⟩ := hi.unique t' ht' r' hr' p q a ((owns_frozen_iff f).mp ho)
        ((owns_frozen_iff g).mp ho')
      exact ⟨heqt.trans heqr.symm, rfl⟩
    case pointers =>
      intro t ht p a ho
      obtain ⟨t', ht', ⟨f, rfl⟩, -⟩ := hmem ht
      exact hi.pointers t' ht' p a ((owns_frozen_iff f).mp ho)
    case leaves =>
      intro t ht p a ho
      obtain ⟨t', ht', ⟨f, rfl⟩, -⟩ := hmem ht
      exact hi.leaves t' ht' p a ((owns_frozen_iff f).mp ho)
    case books => exact hi.books
  · obtain ⟨t', ht', ⟨f, rfl⟩, -⟩ := hmem ht
    exact h.last t' ht'

theorem mem_spaces_drop {S : List (AddressSpace A)} {s t : AddressSpace A} :
    t ∈ S.filter (· ≠ s) ↔ t ∈ S ∧ t ≠ s := by
  rw [List.mem_filter, decide_eq_true_eq]

theorem Step.wellSplit (h : Step R R') (hR : ∀ s ∈ R.spaces, s.WellSplit) :
    ∀ s ∈ R'.spaces, s.WellSplit := by
  cases h with
  | create _ hs => exact List.forall_mem_cons.mpr ⟨wellSplit_of_create hs, hR⟩
  | createFailed => exact hR
  | createAbove _ _ hs => exact List.forall_mem_cons.mpr ⟨wellSplit_of_createAbove hs, hR⟩
  | createAboveFailed => exact hR
  | change => exact hR
  | freeze =>
    intro t ht
    obtain ⟨r, hr, rfl⟩ := List.mem_map.mp ht
    split
    · exact hR r hr
    · exact hR r hr
  | drop => exact fun t ht => hR t (mem_spaces_drop.mp ht).1

theorem Reachable.wellSplit (h : Reachable R) : ∀ s ∈ R.spaces, s.WellSplit := by
  induction h with
  | start => exact nofun
  | step _ hstep ih => exact hstep.wellSplit ih

theorem Step.before (h : Step R R') (hR : ∀ s ∈ R.spaces, s.WellSplit) :
    R.memory.Before R'.memory := by
  cases h with
  | create hnew _ => exact (create_triple hnew R.memory).before _
  | createFailed hnew _ => exact (create_triple hnew R.memory).before _
  | createAbove hbase hnew _ => exact (createAbove_triple hbase hnew _ R.memory).before _
  | createAboveFailed hbase hnew _ => exact (createAbove_triple hbase hnew _ R.memory).before _
  | change hs hun ch => exact (ch.run_triple hs (hR _ hs) hun R.memory).before _
  | freeze => exact .refl _
  | drop hs hun =>
    exact (teardown_triple hs (hR _ hs) hun (fun _ => mem_spaces_drop) R.memory).before _

theorem Reachable.change {S : List (AddressSpace A)} {s : AddressSpace A} {m : Memory}
    (h : Reachable ⟨m, S⟩) (hs : s ∈ S) (hun : Unshared S s) (ch : Change) :
    Reachable ⟨(ch.run s).final m, S⟩ ∧ m.Before ((ch.run s).final m) := by
  have hstep := Step.change (R := ⟨m, S⟩) hs hun ch
  exact ⟨h.step hstep, hstep.before h.wellSplit⟩

theorem Step.sound (h : Step R R') (hR : Sound R) (hp : R'.memory.Placed A.codec) :
    Sound R' := by
  have hi := hR.intact
  cases h with
  | create hnew hs => exact hR.born ((create_triple hnew R.memory).of_ok ⟨rfl, hi⟩ hp hs).2
  | createFailed hnew he =>
    have hkeep := ((create_triple hnew R.memory).of_error ⟨rfl, hi⟩ hp he).1
    rw [hkeep]
    exact hR
  | createAbove hbase hnew hs =>
    exact hR.born ((createAbove_triple hbase hnew _ R.memory).of_ok ⟨rfl, hi⟩ hp hs).2
  | createAboveFailed hbase hnew he =>
    have hkeep := ((createAbove_triple hbase hnew _ R.memory).of_error ⟨rfl, hi⟩ hp he).1
    rw [hkeep]
    exact hR
  | @change s hs hun ch =>
    have htriple := ch.run_triple hs (hi.split s hs) hun R.memory
    exact hR.kept ((htriple.error fun _ _ hk => hk.1).of_end ⟨rfl, hi⟩ hp)
  | @freeze s hs hun => exact hR.freeze s
  | @drop s hs hun =>
    have htriple := teardown_triple hs (hi.split s hs) hun (fun _ => mem_spaces_drop) R.memory
    obtain ⟨hi', hsame, -⟩ := (htriple.error fun _ _ hf => hf.elim).of_end
      ⟨rfl, hi, hR.last s hs⟩ hp
    refine ⟨hi', fun t ht y hy hlast => ?_⟩
    rw [(hsame t ht).leafAt_eq]
    exact hR.last t (mem_spaces_drop.mp ht).1 y hy hlast

theorem sound_start {m : Memory} (h : m.Idle) : Sound (⟨m, []⟩ : Realm A) := by
  refine ⟨⟨nofun, nofun, nofun, fun a => ?_, nofun, nofun, nofun, h.books⟩, nofun⟩
  dsimp only
  rw [h.live]
  constructor
  · intro ha
    exact absurd ha Std.ExtTreeSet.not_mem_empty
  · rintro ⟨s, hs, -⟩
    cases hs

/-- Reachable realms are sound, as long as the allocator keeps its promises. -/
theorem Reachable.sound (h : Reachable R) (hp : R.memory.Placed A.codec) : Sound R := by
  induction h with
  | start hm => exact sound_start hm.idle
  | step h hstep ih => exact hstep.sound (ih (hp.of_before (hstep.before h.wellSplit))) hp

/-! ## A realm with one space -/

theorem placedLow_startingAt {base : Word} {limit : Option Nat} {m : Memory}
    (hb : (Memory.startingAt base limit).Before m) (ha : base.toNat % 4096 = 0)
    (hlt : base.toNat + 4096 * m.fresh ≤ 2 ^ 48) : m.PlacedLow := by
  have hplace {n : Nat} (hn : n < m.fresh) : (m.place n).word.toNat = base.toNat + 4096 * n := by
    have hmul : (BitVec.ofNat 64 n * pageSize).toNat = 4096 * n := by
      rw [BitVec.toNat_mul, BitVec.toNat_ofNat, toNat_pageSize, Nat.mod_eq_of_lt (by omega),
        Nat.mod_eq_of_lt (by omega), Nat.mul_comm]
    rw [hb.2]
    change (base + BitVec.ofNat 64 n * pageSize).toNat = _
    rw [BitVec.toNat_add, hmul, Nat.mod_eq_of_lt (by omega)]
  intro n hn
  refine ⟨?_, ?_, fun k hk heq => ?_⟩
  · rw [PhysicalAddress.isPageAligned_iff, hplace hn]
    omega
  · rw [hplace hn]
    omega
  · have hne : (m.place k).word.toNat = (m.place n).word.toNat := by rw [heq]
    rw [hplace (by omega), hplace hn] at hne
    omega

theorem placed_startingAt {base : Word} {limit : Option Nat} {m : Memory}
    (hb : (Memory.startingAt base limit).Before m) (ha : base.toNat % 4096 = 0)
    (hlt : base.toNat + 4096 * m.fresh ≤ 2 ^ 48) : m.Placed A.codec :=
  (placedLow_startingAt hb ha hlt).placed A

def firstSpace (A : Architecture) (base : Word) : AddressSpace A :=
  ⟨⟨1⟩, (Memory.startingAt base none).nextArray, none, false⟩

def single (A : Architecture) (base : Word) : Realm A :=
  ⟨(AddressSpace.create A ⟨1⟩).final (Memory.startingAt base none), [firstSpace A base]⟩

theorem reachable_single (A : Architecture) (base : Word) : Reachable (single A base) :=
  .step (.start ⟨rfl, rfl, rfl, rfl⟩) (.create nofun rfl)

theorem before_single (A : Architecture) (base : Word) :
    (Memory.startingAt base none).Before (single A base).memory := by
  have hnew : ∀ t ∈ ([] : List (AddressSpace A)), t.owner.number < (⟨1⟩ : OwnerId).number := nofun
  exact (create_triple hnew (Memory.startingAt base none)).before _

theorem unshared_single (A : Architecture) (base : Word) :
    Unshared (single A base).spaces (firstSpace A base) := by
  intro t ht u hu
  obtain rfl := List.mem_singleton.mp ht
  cases hu

end Realm

end Sandbox
