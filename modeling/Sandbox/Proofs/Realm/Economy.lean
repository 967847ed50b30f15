import Sandbox.Proofs.Realm.Compact
import Sandbox.Proofs.Space.Census

/-! # Economy

A space all of whose changes returned has no array to spare: besides its root it owns one for
each block with a mapped page. Mapping then allocates what is missing, unmapping gives back
what it empties, and one after the other leave everything as it was.
-/

namespace Sandbox

open AddressSpace Walk

namespace Realm

variable {A : Architecture} {R R' : Realm A} {s : AddressSpace A} {m : Memory}
  {a : VirtualAddress} {length stop : Word} {o : MapOptions} {physical : PhysicalAddress}
  {changed : Bool} {owner : OwnerId}

/-! ## Arrays and pages -/

theorem path_pageBase (l : Level) (x : VirtualAddress) :
    l.path x.pageBase.word = l.path x.word := by
  apply Level.path_congr
  rw [x.toNat_pageBase]
  cases l <;> simp only [Level.shift] <;> omega

theorem pageBase_of_isPage {y : Word} (hy : IsPage y) : (VirtualAddress.mk y).pageBase = ⟨y⟩ :=
  pageBase_eq hy.aligned (Nat.le_refl _) (Nat.lt_add_of_pos_right (by decide))

/-- A lookup of the address finds a page in the space's own part. -/
def Finds (s : AddressSpace A) (m : Memory) (x : VirtualAddress) : Prop :=
  (∃ t, (s.lookup x).outcome m = .ok (some t)) ∧ ∀ u, s.upper = some u → x.word.toNat < u.start.toNat

def foundBlocks (s : AddressSpace A) (m : Memory) (k : Nat) : Set Nat :=
  {n | ∃ x, Finds s m x ∧ n = x.word.toNat / 2 ^ k}

theorem Sound.answer_of_isCanonical (h : Sound R) (hs : s ∈ R.spaces) {x : VirtualAddress}
    (hx : x.isCanonical = true) : s.answer R.memory x =
      .ok (mapping? A x.pageBase.word (s.leafAt R.memory x.pageBase.word)) := by
  have hbase := x.toNat_pageBase
  cases hstop : Word.add? x.pageBase.word pageSize with
  | none =>
    have hlast : maxEnd.toNat ≤ x.pageBase.word.toNat := by
      rw [Word.add?_eq] at hstop
      split at hstop
      · cases hstop
      · next hlt =>
        rw [toNat_pageSize] at hlt
        rw [toNat_maxEnd]
        omega
    have hpage : IsPage x.pageBase.word := ⟨by omega, by rw [isCanonical_pageBase, hx]⟩
    rw [answer_last hstop, h.last s hs _ hpage hlast, mapping?,
      if_neg (by rw [A.lawful.isValid_zero]; exact Bool.false_ne_true)]
  | some stop => rw [answer_eq hstop, if_pos hx]

theorem answer_of_not_isCanonical {x : VirtualAddress} (hx : ¬ x.isCanonical = true)
    (s : AddressSpace A) (m : Memory) : ∃ e, s.answer m x = .error (.abort e) := by
  have hbase := x.toNat_pageBase
  have hlt : x.pageBase.word.toNat + pageSize.toNat < 2 ^ 64 := by
    rw [VirtualAddress.isCanonical, Canonical.isCanonical_iff] at hx
    rw [toNat_pageSize]
    omega
  have hstop : Word.add? x.pageBase.word pageSize = some (x.pageBase.word + pageSize) := by
    rw [Word.add?_eq, if_pos hlt]
  rw [answer_eq hstop, if_neg hx]
  exact ⟨_, rfl⟩

theorem Sound.answer_eq_some_iff (h : Sound R) (hs : s ∈ R.spaces) (x : VirtualAddress) :
    (∃ t, s.answer R.memory x = .ok (some t)) ↔ s.Maps R.memory x.pageBase.word := by
  have hbase := x.toNat_pageBase
  by_cases hx : x.isCanonical = true
  · have hpage : IsPage x.pageBase.word := ⟨by omega, by rw [isCanonical_pageBase, hx]⟩
    rw [h.answer_of_isCanonical hs hx, mapping?]
    constructor
    · rintro ⟨t, ht⟩
      refine ⟨hpage, ?_⟩
      by_contra hv
      rw [if_neg hv] at ht
      cases ht
    · rintro ⟨-, hv⟩
      rw [if_pos hv]
      exact ⟨_, rfl⟩
  · obtain ⟨e, he⟩ := answer_of_not_isCanonical hx s R.memory
    constructor
    · rintro ⟨t, ht⟩
      cases he.symm.trans ht
    · rintro ⟨hpage, -⟩
      exact absurd ((isCanonical_pageBase x).symm.trans hpage.canonical) hx

/-- Lookups find the pages that are mapped in the space's own slots. -/
theorem Sound.finds_iff (h : Sound R) (hp : R.memory.Placed A.codec) (hs : s ∈ R.spaces)
    (x : VirtualAddress) : Finds s R.memory x ↔ x.pageBase.word ∈ s.ownPages R.memory := by
  have hbase := x.toNat_pageBase
  unfold Finds ownPages
  rw [lookup_outcome h.intact hs hp, h.answer_eq_some_iff hs]
  apply and_congr_right
  rintro ⟨hy, -⟩
  rw [(h.intact.split s hs).ownsSlot_iff hy.canonical]
  apply forall₂_congr
  intro u hu
  have haligned := (h.intact.split s hs u hu).1
  omega

theorem Sound.foundBlocks_eq (h : Sound R) (hp : R.memory.Placed A.codec) (hs : s ∈ R.spaces)
    {k : Nat} (hk : 12 ≤ k) : foundBlocks s R.memory k = s.ownBlocks R.memory k := by
  have hdiv (n : Nat) : n / 4096 * 4096 / 2 ^ k = n / 2 ^ k := by
    obtain ⟨j, rfl⟩ := Nat.exists_eq_add_of_le hk
    rw [pow_add, ← Nat.div_div_eq_div_mul, ← Nat.div_div_eq_div_mul]
    congr 1
    omega
  ext n
  constructor
  · rintro ⟨x, hx, rfl⟩
    refine ⟨_, (h.finds_iff hp hs x).mp hx, ?_⟩
    dsimp only
    rw [x.toNat_pageBase, hdiv]
  · rintro ⟨y, hy, rfl⟩
    exact ⟨⟨y⟩, (h.finds_iff hp hs _).mpr (by rwa [pageBase_of_isPage hy.1.1]), rfl⟩

/-! ## Changes in terms of lookups -/

section Range

variable (hstop : stop.toNat = a.word.toNat + length.toNat) (ha : Accepted a.word stop)

include hstop ha

theorem inPages_iff_covers {x : VirtualAddress} :
    InPages a length x ↔ Covers a.word stop x.pageBase.word := by
  have hend := toNat_pageEnd hstop ha
  have haligned := ha.aligned
  have hbase := x.toNat_pageBase
  unfold InPages Covers
  omega

theorem passed_iff_inPages {q : List (Fin 512)} : Passed a.word stop q ↔
    ∃ x, InPages a length x ∧ q <:+ Level.pte.path x.word := by
  rw [passed_iff ha]
  constructor
  · rintro ⟨y, hy, hsuf⟩
    have hend := toNat_pageEnd hstop ha
    have hlt := hy.lt_pageEnd
    rw [hend] at hlt
    exact ⟨⟨y⟩, ⟨hy.le, hlt⟩, hsuf⟩
  · rintro ⟨x, hx, hsuf⟩
    exact ⟨_, hx.inside hstop ha, by rwa [path_pageBase]⟩

end Range

/-- Arrays are allocated where they are missing on the way into the range. None is freed. -/
structure Fills (s : AddressSpace A) (a : VirtualAddress) (length : Word) (m m' : Memory)
    (missing : List (List (Fin 512))) : Prop where
  nodup : missing.Nodup
  mem_iff : ∀ q, q ∈ missing ↔
    (∃ x, InPages a length x ∧ q <:+ Level.pte.path x.word) ∧ q ∉ s.ownPaths m
  allocations : m'.allocations = m.allocations + missing.length
  frees : m'.frees = m.frees
  owns : ∀ q b, s.Owns m q b → s.Owns m' q b
  ownPaths : ∀ q, q ∈ s.ownPaths m' ↔ q ∈ s.ownPaths m ∨ q ∈ missing

/-- Arrays below the root are freed, each once, if no page outside the range is found in
them. None is allocated. -/
structure Empties (s : AddressSpace A) (a : VirtualAddress) (length : Word) (m m' : Memory)
    (freed : List PhysicalAddress) : Prop where
  nodup : freed.Nodup
  mem_iff : ∀ b, b ∈ freed ↔ ∃ q, q ≠ [] ∧ s.Owns m q b ∧
    ∀ x, Finds s m x → q <:+ Level.pte.path x.word → InPages a length x
  pool : m'.pool = freed ++ m.pool
  frees : m'.frees = m.frees + freed.length
  allocations : m'.allocations = m.allocations
  owns : ∀ q b, s.Owns m' q b ↔ s.Owns m q b ∧ b ∉ freed

theorem Sound.fills (h : Sound R) (hs : s ∈ R.spaces) (hun : Unshared R.spaces s)
    (ho : o.access.any = true)
    (hok : (s.map a length o physical).outcome R.memory = .ok changed)
    (hp : ((s.map a length o physical).final R.memory).Placed A.codec) :
    ∃ missing, Fills s a length R.memory ((s.map a length o physical).final R.memory) missing := by
  have htriple : Triple A.codec _ (s.map a length o physical) _ _ :=
    map_triple hs (h.intact.split s hs) hun ho physical R.memory
  obtain ⟨stop, hstop, ha, -, hmap, ⟨new, hg⟩, he⟩ :=
    (htriple.of_ok ⟨rfl, h.intact⟩ hp hok).range
  refine ⟨new, hg.nodup, fun q => ?_, hg.allocations, hg.frees, hg.owns, fun q => ?_⟩
  · rw [hg.mem_iff_passed ha he hmap, passed_iff_inPages hstop ha]
    rfl
  · rw [hg.mem_iff]
    constructor
    · intro hq
      by_cases hold : q ∈ s.ownPaths R.memory
      · exact Or.inl hold
      · exact Or.inr ⟨hq, hold⟩
    · rintro (⟨b, ho⟩ | hq)
      · exact ⟨b, hg.owns q b ho⟩
      · exact hq.1

theorem Sound.empties (h : Sound R) (hp : R.memory.Placed A.codec) (hs : s ∈ R.spaces)
    (hun : Unshared R.spaces s) (hc : s.Compact R.memory)
    (hok : (s.unmap a length).outcome R.memory = .ok changed) :
    ∃ freed, Empties s a length R.memory ((s.unmap a length).final R.memory) freed := by
  have hi := h.intact
  have hu := unmapped_of_ok hi hs hun hp hok
  obtain ⟨stop, hstop, ha, hpruned, hclear⟩ := hu.range
  obtain ⟨freed, hr⟩ := hpruned.released
  refine ⟨freed, hr.nodup, fun b => ?_, hr.pool, hr.frees, hu.allocations, fun q b => ?_⟩
  · rw [hr.mem_iff_covers hi hs (hpruned.compact hi hs hc) hclear]
    apply exists_congr
    intro q
    apply and_congr_right
    intro hq
    apply and_congr_right
    intro ho
    constructor
    · intro hall x hx hsuf
      rw [inPages_iff_covers hstop ha]
      exact hall _ ((h.finds_iff hp hs x).mp hx).1 (by rwa [path_pageBase])
    · intro hall y hy hsuf
      have hbase := pageBase_of_isPage hy.1
      have hx : Finds s R.memory ⟨y⟩ := by
        rw [h.finds_iff hp hs, hbase]
        exact ⟨hy, ownsSlot_of_suffix hq ho.ownsPath hsuf⟩
      have hin := (inPages_iff_covers hstop ha).mp (hall ⟨y⟩ hx hsuf)
      rwa [hbase] at hin
  · constructor
    · exact fun ho => ⟨hr.owns q b ho, fun hb => ((hr.mem_iff b).mp hb).2 ⟨q, ho⟩⟩
    · rintro ⟨ho, hb⟩
      by_contra hn
      apply hb
      refine (hr.mem_iff b).mpr ⟨⟨q, ho⟩, ?_⟩
      rintro ⟨q', ho'⟩
      obtain ⟨-, rfl⟩ := hi.unique s hs s hs q q' b ho (hr.owns q' b ho')
      exact hn ho'

/-- What is mapped in an unmapped range and unmapped again leaves no trace. -/
theorem Sound.restores (h : Sound R) (hs : s ∈ R.spaces) (hun : Unshared R.spaces s)
    (hc : s.Compact R.memory)
    (hnone : ∀ x, InPages a length x → ¬ Finds s R.memory x)
    (hok : (s.map a length o physical).outcome R.memory = .ok changed)
    (hp : ((s.map a length o physical).final R.memory).Placed A.codec) :
    let m' := (s.map a length o physical).final R.memory
    ∃ changed', (s.unmap a length).outcome m' = .ok changed' ∧
      s.words ((s.unmap a length).final m') = s.words R.memory ∧
      ((s.unmap a length).final m').live = R.memory.live := by
  intro m'
  have hi := h.intact
  have hacc : s.Accepts a length := Change.accepts (.map a length o physical) hok
  have hp₀ := hp.of_before ((Change.run_triple hs (hi.split s hs) hun
    (.map a length o physical) R.memory).before _)
  obtain ⟨stop, hstop, ha, hi', hf, hplace⟩ := map_framed hi hs hun hok hp
  have hc' := Change.compact (.map a length o physical) hi hs hun hok hp hc
  obtain ⟨changed', hok', hu⟩ := unmap_returns hi' hs hun hp hacc
  obtain ⟨stop', hstop', ha', hpruned, hclear⟩ := hu.range
  obtain rfl : stop = stop' := BitVec.eq_of_toNat_eq (hstop.trans hstop'.symm)
  obtain ⟨stop'', -, hm, ha''⟩ := hacc.exists_stop
  obtain rfl : stop = stop'' := BitVec.eq_of_toNat_eq (hstop.trans hm.stop_eq.symm)
  have he := (hi.split s hs).editable hun ha hm.stop_le
  have huntouched := untouched_of_cleared hi hs hc hi' hc' hf hplace hpruned hclear
    (fun y hy hcov => by
      have hbase := pageBase_of_isPage hy.1
      refine hnone ⟨y⟩ ((inPages_iff_covers hstop ha).mpr (by rwa [hbase])) ?_
      rw [h.finds_iff hp₀ hs, hbase]
      exact ⟨hy, he.ownsSlot y (hcov.inside hy.1.aligned)⟩)
  refine ⟨changed', hok', huntouched.words_eq hi hs hpruned.intact hs, ?_⟩
  apply live_eq_of_untouched hi hpruned.intact
  intro t ht
  by_cases hts : t = s
  · exact hts ▸ huntouched
  · exact (hf.others t ht hts).trans (hpruned.framed.others t ht hts)

/-- The space has no array to spare. -/
structure Economical (R : Realm A) (s : AddressSpace A) : Prop where
  live : ∀ b ∈ s.ownArrays R.memory, b ∈ R.memory.live
  /-- One array for the root, and one for each block of 512 GiB, 1 GiB and 2 MiB in which a page
  is mapped. -/
  count : (s.ownArrays R.memory).ncard = 1 + (foundBlocks s R.memory 39).ncard +
    (foundBlocks s R.memory 30).ncard + (foundBlocks s R.memory 21).ncard
  map : Unshared R.spaces s → ∀ a length o physical changed, o.access.any = true →
    (s.map a length o physical).outcome R.memory = .ok changed →
    ((s.map a length o physical).final R.memory).Placed A.codec →
    ∃ missing, Fills s a length R.memory ((s.map a length o physical).final R.memory) missing
  /-- Without access, mapping is unmapping. -/
  map_none : ∀ a length o physical, o.access.any = false →
    s.map a length o physical = s.unmap a length
  unmap : Unshared R.spaces s → ∀ a length changed,
    (s.unmap a length).outcome R.memory = .ok changed →
    ∃ freed, Empties s a length R.memory ((s.unmap a length).final R.memory) freed
  /-- What is mapped in an unmapped range can be unmapped again, and leaves no trace. -/
  restore : Unshared R.spaces s → ∀ a length o physical changed,
    (∀ x, InPages a length x → ¬ Finds s R.memory x) →
    (s.map a length o physical).outcome R.memory = .ok changed →
    ((s.map a length o physical).final R.memory).Placed A.codec →
    let m' := (s.map a length o physical).final R.memory
    ∃ changed', (s.unmap a length).outcome m' = .ok changed' ∧
      s.words ((s.unmap a length).final m') = s.words R.memory ∧
      ((s.unmap a length).final m').liveCount = R.memory.liveCount

/-- A space is economical as long as all of its changes returned since it was made, whatever was
done to other spaces. -/
theorem Reachable.economical (h : Reachable R) (hnew : ∀ s ∈ R.spaces, s.owner ≠ owner)
    (hrun : Leads (Returns owner) R R') (hp : R'.memory.Placed A.codec) (hs : s ∈ R'.spaces)
    (howner : s.owner = owner) : R'.Economical s := by
  have hsound := (hrun.reachable h).sound hp
  have hi := hsound.intact
  have hc := hrun.compact h hp hnew s hs howner
  constructor
  · rintro b ⟨q, ho⟩
    exact hi.mem_live hs ho
  · rw [hsound.foundBlocks_eq hp hs (by decide), hsound.foundBlocks_eq hp hs (by decide),
      hsound.foundBlocks_eq hp hs (by decide)]
    exact hc.card_arrays hi hs
  · exact fun hun a length o physical changed ho hok hp' => hsound.fills hs hun ho hok hp'
  · exact fun a length o physical ho => map_eq_unmap s a length ho physical
  · exact fun hun a length changed hok => hsound.empties hp hs hun hc hok
  · intro hun a length o physical changed hnone hok hp'
    obtain ⟨changed', hok', hwords, hlive⟩ := hsound.restores hs hun hc hnone hok hp'
    exact ⟨changed', hok', hwords, congrArg Std.ExtTreeSet.size hlive⟩

def mapOnePage : Call .riscv64 :=
  .change (firstSpace .riscv64 0x1000000)
    (.map ⟨0x5000⟩ 0x1000 (.forUser .readWrite) ⟨0x80000000⟩)

/-- A page in another block of 1 GiB takes two more arrays, which are given back with it. -/
theorem economical_firstSpace :
    let s := firstSpace .riscv64 0x1000000
    let m := (mapOnePage.next (single .riscv64 0x1000000)).memory
    let m' := (s.map ⟨0x40000000⟩ 0x1000 (.forUser .readWrite) ⟨0x90000000⟩).final m
    m.liveCount = 4 ∧ m'.liveCount = 6 ∧
      s.words ((s.unmap ⟨0x40000000⟩ 0x1000).final m') = s.words m ∧
      ((s.unmap ⟨0x40000000⟩ 0x1000).final m').liveCount = 4 := by
  intro s m m'
  have hstart : Reachable (A := .riscv64) ⟨.startingAt 0x1000000 none, []⟩ :=
    .start ⟨rfl, rfl, rfl, rfl⟩
  have hcreate : (Call.create (A := .riscv64) ⟨1⟩).Allowed ⟨.startingAt 0x1000000 none, []⟩ := nofun
  have hun := unshared_single .riscv64 0x1000000
  have hmap : mapOnePage.Allowed (single .riscv64 0x1000000) := ⟨List.mem_cons_self, hun⟩
  have hsingle : (Call.create (A := .riscv64) ⟨1⟩).next ⟨.startingAt 0x1000000 none, []⟩ =
    single .riscv64 0x1000000 := rfl
  have hfirst : Leads (Returns ⟨1⟩) ⟨.startingAt 0x1000000 none, []⟩ (single .riscv64 0x1000000) :=
    hsingle ▸ .call .refl hcreate trivial
  have hrun := hfirst.call hmap fun _ => ⟨false, by decide +kernel⟩
  have hbefore := hrun.before hstart
  have hstep := Step.change (R := mapOnePage.next (single .riscv64 0x1000000)) List.mem_cons_self hun
    (.map ⟨0x40000000⟩ 0x1000 (.forUser .readWrite) ⟨0x90000000⟩)
  have hbefore' := hbefore.trans (hstep.before (hrun.reachable hstart).wellSplit)
  dsimp only at hbefore'
  have hplaced := placed_startingAt (A := .riscv64) hbefore (by decide) (by decide +kernel)
  have heconomical := hstart.economical nofun hrun hplaced List.mem_cons_self rfl
  have hsound := (hrun.reachable hstart).sound hplaced
  have hnone (x : VirtualAddress) (hx : InPages ⟨0x40000000⟩ 0x1000 x) :
      ¬ Finds s (mapOnePage.next (single .riscv64 0x1000000)).memory x := by
    have hbase : x.pageBase = ⟨0x40000000⟩ := pageBase_eq (by decide) hx.1 hx.2
    rw [hsound.finds_iff hplaced List.mem_cons_self, hbase]
    rintro ⟨⟨-, hv⟩, -⟩
    exact absurd hv (by decide +kernel)
  obtain ⟨changed, -, hwords, hlive⟩ := heconomical.restore hun ⟨0x40000000⟩ 0x1000
    (.forUser .readWrite) ⟨0x90000000⟩ false hnone (by decide +kernel)
    (placed_startingAt hbefore' (by decide) (by decide +kernel))
  have hcount : m.liveCount = 4 ∧ m'.liveCount = 6 := by decide +kernel
  exact ⟨hcount.1, hcount.2, hwords, hlive.trans hcount.1⟩

end Realm

end Sandbox
