import Sandbox.Proofs.Realm.Economy
import Sandbox.Proofs.Space.Recovery

/-! # Running out of memory

A mapping refuses to go on exactly if the arrays that it lacks are more than the allocator has
left. The pages before the one at which it stops are mapped then, nothing else can be told from
lookups, and unmapping the range ends as if the mapping had not been tried.
-/

namespace Sandbox

open AddressSpace Walk

variable {A : Architecture} {S : List (AddressSpace A)} {s : AddressSpace A} {m m' m₀ : Memory}
  {a : VirtualAddress} {length stop : Word} {o : MapOptions} {physical : PhysicalAddress}
  {k : Nat}

theorem Memory.not_room_iff {n limit : Nat} (h : m.limit = some limit) :
    ¬ m.Room n ↔ limit - m.liveCount < n := by
  have hiff : m.Room n ↔ n = 0 ∨ m.liveCount + n ≤ limit := by
    simp only [Room, h, Option.some.injEq, forall_eq']
  rw [hiff]
  omega

namespace AddressSpace

/-- Paths to arrays on the way to the pages of a range that the space lacks. -/
def missing (s : AddressSpace A) (m : Memory) (a : VirtualAddress) (length : Word) :
    Set (List (Fin 512)) :=
  {q | (∃ x, InPages a length x ∧ q <:+ Level.pte.path x.word) ∧ q ∉ s.ownPaths m}

def FramesFit (c : EntryCodec) (physical : PhysicalAddress) (length : Word) : Prop :=
  ∀ i < pageCount length,
    (PhysicalAddress.mk (physical.word + BitVec.ofNat 64 (4096 * i))).isPageAligned = true ∧
      c.Fits ⟨physical.word + BitVec.ofNat 64 (4096 * i)⟩

/-- What lookups tell of a mapping that stopped at the page number `k`, and that no array was
lost to it. -/
structure Interrupted (S : List (AddressSpace A)) (s : AddressSpace A) (a : VirtualAddress)
    (length : Word) (o : MapOptions) (physical : PhysicalAddress) (k : Nat) (m₀ m : Memory) :
    Prop where
  inside : k < pageCount length
  mapped : ∀ i < k, ∀ x : VirtualAddress, x.pageBase = pageAt a i →
    (s.lookup x).outcome m = .ok (some (pageMapping a o physical i))
  unmapped : ∀ x : VirtualAddress, x.pageBase = pageAt a k → (s.lookup x).outcome m = .ok none
  rest : ∀ x : VirtualAddress, (∀ i < k, x.pageBase ≠ pageAt a i) →
    (s.lookup x).outcome m = (s.lookup x).outcome m₀
  others : ∀ t ∈ S, t ≠ s → ∀ x, (t.lookup x).outcome m = (t.lookup x).outcome m₀
  live_iff : ∀ b, b ∈ m.live ↔ ∃ t ∈ S, ∃ q, t.Owns m q b
  kept : ∀ t ∈ S, ∀ q b, t.Owns m₀ q b → t.Owns m q b
  frees : m.frees = m₀.frees

/-- Lookups find the first `k` pages of a range mapped as was asked, and all other pages as they
were. -/
structure Advanced (s : AddressSpace A) (a : VirtualAddress) (o : MapOptions)
    (physical : PhysicalAddress) (k : Nat) (m₀ m : Memory) : Prop where
  mapped : ∀ i < k, ∀ x : VirtualAddress, x.pageBase = pageAt a i →
    (s.lookup x).outcome m = .ok (some (pageMapping a o physical i))
  rest : ∀ x : VirtualAddress, (∀ i < k, x.pageBase ≠ pageAt a i) →
    (s.lookup x).outcome m = (s.lookup x).outcome m₀

/-- Unmapping the range returns in both memories, and then lookups find the same in both, and
as many arrays are live. -/
structure UnmapsAlike (S : List (AddressSpace A)) (s : AddressSpace A) (a : VirtualAddress)
    (length : Word) (m m' : Memory) : Prop where
  returns : ∃ changed, (s.unmap a length).outcome m = .ok changed
  returns' : ∃ changed, (s.unmap a length).outcome m' = .ok changed
  lookups : ∀ t ∈ S, ∀ x, (t.lookup x).outcome ((s.unmap a length).final m') =
    (t.lookup x).outcome ((s.unmap a length).final m)
  liveCount : ((s.unmap a length).final m').liveCount = ((s.unmap a length).final m).liveCount

section Range

variable (hstop : stop.toNat = a.word.toNat + length.toNat) (ha : Accepted a.word stop)

include hstop ha

theorem exists_pageAt {x : VirtualAddress} (hx : Inside a.word stop x.word) :
    ∃ i < pageCount length, x = pageAt a i := by
  have hle := hx.le
  have hlt := hx.lt
  have haligned := hx.aligned
  have hstart := ha.aligned
  have hi : (x.word.toNat - a.word.toNat) / 4096 < pageCount length := by
    unfold pageCount
    omega
  have hnum := toNat_pageAt hstop ha hi
  refine ⟨_, hi, congrArg VirtualAddress.mk (BitVec.eq_of_toNat_eq ?_)⟩
  change x.word.toNat = (pageAt a _).word.toNat
  omega

theorem missing_eq_lacking (s : AddressSpace A) (m : Memory) :
    s.missing m a length = s.lacking m a.word stop := by
  ext q
  exact and_congr_left' (Realm.passed_iff_inPages hstop ha).symm

theorem FramesFit.mappable {c : EntryCodec} (h : FramesFit c physical length) :
    Mappable c (physical.word - a.word) a.word stop := by
  intro y hy
  obtain ⟨i, hi, heq⟩ := exists_pageAt (x := ⟨y⟩) hstop ha hy
  rw [show y = (pageAt a i).word from congrArg VirtualAddress.word heq, pageAt_add_distance]
  exact h i hi

theorem FramesFit.bound (h : FramesFit A.codec physical length) :
    physical.word.toNat + (length.toNat - 1) ≤ (BitVec.allOnes 64).toNat := by
  have hwidth : A.codec.frame.width ≤ 44 := by cases A <;> decide
  have hlen := length.isLt
  rw [BitVec.toNat_allOnes]
  by_cases h0 : length.toNat = 0
  · have := physical.word.isLt
    omega
  · -- A range that is not empty lies in one half, which is much smaller than what is left.
    have hhalf := ha.half (by omega)
    have hstop_lt := stop.isLt
    obtain ⟨-, hfit⟩ := h 0 (by unfold pageCount; omega)
    have hword : physical.word + BitVec.ofNat 64 (4096 * 0) = physical.word := by simp
    rw [hword, EntryCodec.fits_iff] at hfit
    have hpow : 2 ^ A.codec.frame.width ≤ 2 ^ 44 := Nat.pow_le_pow_right (by decide) hwidth
    dsimp only at hfit
    omega

theorem map_eq_change (hb : s.mutableBounds a length = .ok (a.word, stop))
    (ho : o.access.any = true) (hfit : FramesFit A.codec physical length) :
    s.map a length o physical =
      s.change (Visitor.map A.codec a.word physical o.normalized) a.word stop false :=
  (map_eq hb ho physical).trans (if_pos (hfit.bound hstop ha))

end Range

/-- A mapping returns if there is room for the arrays that are missing, and is cut short if not. -/
theorem map_returns_or_cutShort (hi : Intact S m) (hs : s ∈ S) (hun : Unshared S s)
    (ho : o.access.any = true) (hacc : s.Accepts a length)
    (hfit : FramesFit A.codec physical length)
    (hp : ((s.map a length o physical).final m).Placed A.codec) :
    (m.Room (s.missing m a length).ncard ∧
      ∃ changed, (s.map a length o physical).outcome m = .ok changed) ∨
    (¬ m.Room (s.missing m a length).ncard ∧
      (s.map a length o physical).outcome m = .error (.refusal .outOfMemory) ∧
      ∃ stop x, stop.toNat = a.word.toNat + length.toNat ∧ Accepted a.word stop ∧
        CutShort S s a.word stop o.normalized (physical.word - a.word) x m
          ((s.map a length o physical).final m)) := by
  obtain ⟨stop, hb, hm, ha⟩ := hacc.exists_stop
  have he := (hi.split s hs).editable hun ha hm.stop_le
  have hwalk := map_eq_change hm.stop_eq ha hb ho hfit
  rw [missing_eq_lacking hm.stop_eq ha]
  rcases extend_cases hi hs he ha (MapOptions.any_normalized ho)
    (hfit.mappable hm.stop_eq ha) hwalk hp with hok | ⟨hroom, hout, x, hcut⟩
  · exact Or.inl hok
  · exact Or.inr ⟨hroom, hout, stop, x, hm.stop_eq, ha, hcut⟩

theorem MappedUpTo.advanced (h : MappedUpTo A.codec o.normalized (physical.word - a.word) a.word
      (s.leafAt m₀) (pageAt a k).word.toNat (s.leafAt m)) (hi : Intact S m₀) (hi' : Intact S m)
    (hs : s ∈ S) (hp₀ : m₀.Placed A.codec) (hp : m.Placed A.codec)
    (hstop : stop.toNat = a.word.toNat + length.toNat) (ha : Accepted a.word stop)
    (hk : k < pageCount length) : Advanced s a o physical k m₀ m := by
  have htoNat {i : Nat} (hik : i ≤ k) := toNat_pageAt hstop ha (Nat.lt_of_le_of_lt hik hk)
  have hin {i : Nat} (hik : i ≤ k) := inside_pageAt hstop ha (Nat.lt_of_le_of_lt hik hk)
  constructor
  case mapped =>
    intro i hik x hx
    have hleaf := h _ (ha.isPage (hin hik.le))
    have hlow := htoNat hik.le
    have hhigh := htoNat (Nat.le_refl k)
    rw [if_pos (by omega), pageAt_add_distance] at hleaf
    rw [lookup_outcome hi' hs hp, answer_of_inside ha (hx ▸ hin hik.le), hx,
      mapping?_pageAt hleaf]
  case rest =>
    intro x hx
    rw [lookup_outcome hi' hs hp, lookup_outcome hi hs hp₀]
    apply answer_congr
    intro hc
    have hbase := x.toNat_pageBase
    have hpage : IsPage x.pageBase.word := ⟨by omega, by rw [isCanonical_pageBase, hc]⟩
    have hleaf := h _ hpage
    rw [if_neg ?_] at hleaf
    · exact hleaf
    rintro ⟨hle, hlt⟩
    have hlast := (hin (Nat.le_refl k)).lt
    obtain ⟨i, hik, hxi⟩ := exists_pageAt hstop ha (x := x.pageBase)
      ⟨hle, by omega, hpage.aligned⟩
    have hnum := toNat_pageAt hstop ha hik
    have hnum' := htoNat (Nat.le_refl k)
    rw [hxi] at hlt
    exact hx i (by omega) hxi

theorem CutShort.interrupted {x : Word} (h : CutShort S s a.word stop o.normalized
      (physical.word - a.word) x m₀ m) (hi : Intact S m₀) (hs : s ∈ S)
    (hp₀ : m₀.Placed A.codec) (hp : m.Placed A.codec)
    (hstop : stop.toNat = a.word.toNat + length.toNat) (ha : Accepted a.word stop) :
    ∃ k, Interrupted S s a length o physical k m₀ m := by
  obtain ⟨k, hk, hxk⟩ := exists_pageAt (x := ⟨x⟩) hstop ha h.inside
  obtain rfl : x = (pageAt a k).word := congrArg VirtualAddress.word hxk
  have hadvanced := h.mapped.advanced hi h.intact hs hp₀ hp hstop ha hk
  refine ⟨k, hk, hadvanced.mapped, fun x hx => ?_, hadvanced.rest, fun t ht hne x => ?_,
    h.intact.live_iff, fun t ht q b hb => ?_, ?_⟩
  · rw [lookup_outcome h.intact hs hp, answer_of_inside ha (hx ▸ h.inside), hx, h.unmapped,
      mapping?, if_neg (by rw [A.lawful.isValid_zero]; exact Bool.false_ne_true)]
  · rw [lookup_outcome h.intact ht hp, lookup_outcome hi ht hp₀]
    exact answer_congr x fun _ => (h.framed.others t ht hne).leafAt_eq _
  · obtain ⟨new, hg⟩ := h.gained
    by_cases hts : t = s
    · subst hts
      exact hg.owns q b hb
    · exact (h.framed.others t ht hts).owns_iff.mpr hb
  · obtain ⟨new, hg⟩ := h.gained
    exact hg.frees

/-- Unmapping the range of a mapping that was cut short. -/
theorem CutShort.unmapsAlike {x : Word} (h : CutShort S s a.word stop o
      (physical.word - a.word) x m₀ m) (hi : Intact S m₀) (hs : s ∈ S) (hun : Unshared S s)
    (hacc : s.Accepts a length) (hp₀ : m₀.Placed A.codec) (hp : m.Placed A.codec)
    (hstop : stop.toNat = a.word.toNat + length.toNat) : UnmapsAlike S s a length m₀ m := by
  obtain ⟨c, hout, hu⟩ := unmap_returns hi hs hun hp₀ hacc
  obtain ⟨c', hout', hu'⟩ := unmap_returns h.intact hs hun hp hacc
  obtain ⟨stop₀, hstop₀, ha₀, hpruned, hclear⟩ := hu.range
  obtain ⟨stop₁, hstop₁, ha₁, hpruned', hclear'⟩ := hu'.range
  obtain rfl : stop₀ = stop := BitVec.eq_of_toNat_eq (hstop₀.trans hstop.symm)
  obtain rfl : stop₁ = stop₀ := BitVec.eq_of_toNat_eq (hstop₁.trans hstop₀.symm)
  obtain ⟨hleaf, hcount⟩ := h.recovers hs hpruned hpruned' hclear hclear'
  refine ⟨⟨c, hout⟩, ⟨c', hout'⟩, fun t ht y => ?_, hcount⟩
  rw [lookup_outcome hpruned.intact ht (hp₀.of_supply ((leaves_unmap s a length).final_eq m₀)),
    lookup_outcome hpruned'.intact ht (hp.of_supply ((leaves_unmap s a length).final_eq m))]
  apply answer_congr
  intro hc
  have hbase := y.toNat_pageBase
  exact hleaf t ht _ ⟨by omega, by rw [isCanonical_pageBase, hc]⟩

end AddressSpace

namespace Realm

variable {R : Realm A} {limit : Nat}

/-- Mapping a range that can be mapped runs out of memory exactly if more arrays are missing on
the way to its pages than the limit leaves, and returns otherwise. -/
theorem Reachable.map_outOfMemory (h : Reachable R) (hs : s ∈ R.spaces)
    (hun : Unshared R.spaces s) (hlimit : R.memory.limit = some limit)
    (ho : o.access.any = true) (hacc : s.Accepts a length)
    (hfit : FramesFit A.codec physical length)
    (hp : ((s.map a length o physical).final R.memory).Placed A.codec) :
    let call := s.map a length o physical
    let exhausted := call.outcome R.memory = .error (.refusal .outOfMemory)
    (exhausted ↔ limit - R.memory.liveCount < (s.missing R.memory a length).ncard) ∧
    (¬ exhausted → ∃ changed, call.outcome R.memory = .ok changed) ∧
    (exhausted →
      (∃ k, Interrupted R.spaces s a length o physical k R.memory (call.final R.memory)) ∧
      UnmapsAlike R.spaces s a length R.memory (call.final R.memory)) := by
  intro call exhausted
  have hp₀ := hp.of_before ((Change.run_triple hs (h.wellSplit s hs) hun
    (.map a length o physical) R.memory).before _)
  have hi := (h.sound hp₀).intact
  rw [← Memory.not_room_iff hlimit]
  rcases map_returns_or_cutShort hi hs hun ho hacc hfit hp with
    ⟨hroom, changed, hok⟩ | ⟨hroom, hout, stop, x, hstop, ha, hcut⟩
  · have hn : ¬ exhausted := by
      intro he
      cases hok.symm.trans he
    exact ⟨iff_of_false hn (not_not_intro hroom), fun _ => ⟨changed, hok⟩, fun he => absurd he hn⟩
  · exact ⟨iff_of_true hout hroom, fun hn => absurd hout hn, fun _ =>
      ⟨hcut.interrupted hi hs hp₀ hp hstop ha, hcut.unmapsAlike hi hs hun hacc hp₀ hp hstop⟩⟩

theorem framesFit_pair : FramesFit Architecture.riscv64.codec ⟨0x90000000⟩ 0x2000 := by
  have hframe : ∀ i < pageCount 0x2000,
      (PhysicalAddress.mk (0x90000000 + BitVec.ofNat 64 (4096 * i))).isPageAligned = true ∧
      (0x90000000 + BitVec.ofNat 64 (4096 * i) : Word).toNat / 2 ^ 12 < 2 ^ 44 := by decide
  exact fun i hi => ⟨(hframe i hi).1, EntryCodec.fits_iff.mpr (hframe i hi).2⟩

/-- The second of two pages lies in another block of 2 MiB, for which no array is left. The
first one is mapped, and unmapping both leaves as much as it would have left before. -/
theorem map_outOfMemory_crowded :
    let s := firstSpace .riscv64 0x1000000
    let call := s.map ⟨0x1ff000⟩ 0x2000 (.forUser .readWrite) ⟨0x90000000⟩
    call.outcome crowded.memory = .error (.refusal .outOfMemory) ∧
    0 < (s.missing crowded.memory ⟨0x1ff000⟩ 0x2000).ncard ∧
    (s.lookup ⟨0x200abc⟩).outcome (call.final crowded.memory) =
      (s.lookup ⟨0x200abc⟩).outcome crowded.memory ∧
    ((s.unmap ⟨0x1ff000⟩ 0x2000).final (call.final crowded.memory)).liveCount =
      ((s.unmap ⟨0x1ff000⟩ 0x2000).final crowded.memory).liveCount := by
  intro s call
  obtain ⟨hreach, hbefore⟩ := reachable_crowded
  have hun : Unshared crowded.spaces s := unshared_single .riscv64 0x1000000
  have hstep := Step.change (R := crowded) List.mem_cons_self hun
    (.map ⟨0x1ff000⟩ 0x2000 (.forUser .readWrite) ⟨0x90000000⟩)
  have hbefore' := hbefore.trans (hstep.before hreach.wellSplit)
  dsimp only at hbefore'
  have hacc : s.Accepts ⟨0x1ff000⟩ 0x2000 := ⟨0x1ff000, 0x201000, by decide, by decide⟩
  have hplaced : (call.final crowded.memory).Placed Architecture.riscv64.codec :=
    placed_startingAt hbefore' (by decide) (by decide +kernel)
  have hout : call.outcome crowded.memory = .error (.refusal .outOfMemory) := by decide +kernel
  have hcount : 4 - crowded.memory.liveCount = 0 := by decide +kernel
  obtain ⟨hiff, -, hthen⟩ := hreach.map_outOfMemory List.mem_cons_self hun
    (by decide +kernel : crowded.memory.limit = some 4) (by decide) hacc framesFit_pair hplaced
  obtain ⟨⟨k, hint⟩, halike⟩ := hthen hout
  have hsecond : ∀ i < k, (VirtualAddress.mk 0x200abc).pageBase ≠ pageAt ⟨0x1ff000⟩ i := by
    intro i hik
    have hk : k < 2 := hint.inside
    obtain rfl : i = 0 := by omega
    decide
  exact ⟨hout, hcount ▸ hiff.mp hout, hint.rest _ hsecond, halike.liveCount⟩

end Realm

end Sandbox
