import Sandbox.Proofs.Realm.Calls

/-! # What a mapping establishes

A mapping that returns puts each page of its range where it was told to, whatever was
there before, and no lookup of another page notices.
-/

namespace Sandbox

open AddressSpace Walk

variable {A : Architecture} {S : List (AddressSpace A)} {s : AddressSpace A} {m m₀ : Memory}
  {a : VirtualAddress} {length : Word} {o : MapOptions} {physical : PhysicalAddress}

namespace AddressSpace

/-- Number of pages that a range of `length` bytes touches. -/
def pageCount (length : Word) : Nat :=
  (length.toNat + 4095) / 4096

def pageAt (a : VirtualAddress) (i : Nat) : VirtualAddress :=
  ⟨a.word + BitVec.ofNat 64 (4096 * i)⟩

def pageMapping (a : VirtualAddress) (o : MapOptions) (physical : PhysicalAddress) (i : Nat) :
    Mapping :=
  ⟨pageAt a i, ⟨physical.word + BitVec.ofNat 64 (4096 * i)⟩, pageSize, o.normalized⟩

theorem pageAt_add_distance (a : VirtualAddress) (physical : PhysicalAddress) (i : Nat) :
    (pageAt a i).word + (physical.word - a.word) =
      physical.word + BitVec.ofNat 64 (4096 * i) := by
  unfold pageAt
  generalize BitVec.ofNat 64 (4096 * i) = k
  grind

theorem mapping?_pageAt {i : Nat} {w : Word} (h : A.codec.IsLeafOf w
      ⟨physical.word + BitVec.ofNat 64 (4096 * i)⟩ o.normalized) :
    mapping? A (pageAt a i).word w = some (pageMapping a o physical i) := by
  rw [mapping?, if_pos (h.isValid A.lawful), h.address_eq A.lawful, h.options_eq A.lawful,
    MapOptions.normalized_normalized, pageMapping]

def InPages (a : VirtualAddress) (length : Word) (x : VirtualAddress) : Prop :=
  a.word.toNat ≤ x.word.toNat ∧ x.word.toNat < a.word.toNat + 4096 * pageCount length

theorem answer_congr (x : VirtualAddress) (h : x.isCanonical = true →
    s.leafAt m x.pageBase.word = s.leafAt m₀ x.pageBase.word) : s.answer m x = s.answer m₀ x := by
  cases hstop : Word.add? x.pageBase.word pageSize with
  | none => rw [answer_last hstop, answer_last hstop]
  | some stop =>
    rw [answer_eq hstop, answer_eq hstop]
    by_cases hc : x.isCanonical = true
    · rw [if_pos hc, if_pos hc, h hc]
    · rw [if_neg hc, if_neg hc]

theorem isCanonical_pageBase (x : VirtualAddress) :
    Canonical.isCanonical x.pageBase.word = x.isCanonical := by
  have hbase := x.toNat_pageBase
  rw [Bool.eq_iff_iff, VirtualAddress.isCanonical, Canonical.isCanonical_iff,
    Canonical.isCanonical_iff]
  omega

section Pages

variable {stop : Word} (hstop : stop.toNat = a.word.toNat + length.toNat)
  (ha : Accepted a.word stop)

include hstop ha

theorem toNat_pageEnd : pageEnd stop = a.word.toNat + 4096 * pageCount length := by
  have haligned := ha.aligned
  unfold pageEnd pageCount
  omega

theorem toNat_pageAt {i : Nat} (hi : i < pageCount length) :
    (pageAt a i).word.toNat = a.word.toNat + 4096 * i := by
  have hle := ha.stop_le
  unfold pageCount at hi
  have hk : (BitVec.ofNat 64 (4096 * i)).toNat = 4096 * i := by
    rw [BitVec.toNat_ofNat, Nat.mod_eq_of_lt (by omega)]
  rw [pageAt, BitVec.toNat_add, hk, Nat.mod_eq_of_lt (by omega)]

theorem inside_pageAt {i : Nat} (hi : i < pageCount length) :
    Inside a.word stop (pageAt a i).word := by
  have hy := toNat_pageAt hstop ha hi
  have haligned := ha.aligned
  unfold pageCount at hi
  constructor <;> omega

omit hstop in
theorem answer_of_inside {x : VirtualAddress} (hx : Inside a.word stop x.pageBase.word)
    (m : Memory) : s.answer m x =
      .ok (mapping? A x.pageBase.word (s.leafAt m x.pageBase.word)) := by
  have hc : x.isCanonical = true := by
    rw [← isCanonical_pageBase]
    exact ha.isCanonical hx.le hx.lt
  have hadd := (hx.add ha.stop_le).1
  cases hnext : Word.add? x.pageBase.word pageSize with
  | none =>
    rw [Word.add, hnext] at hadd
    cases hadd
  | some next => rw [answer_eq hnext, if_pos hc]

theorem InPages.inside {x : VirtualAddress} (hx : InPages a length x) :
    Inside a.word stop x.pageBase.word := by
  obtain ⟨hlow, hhigh⟩ := hx
  have haligned := ha.aligned
  have hbase := x.toNat_pageBase
  unfold pageCount at hhigh
  constructor <;> omega

theorem answer_of_framed (hf : Framed S s a.word stop m₀ m) {x : VirtualAddress}
    (hx : ¬ InPages a length x) : s.answer m x = s.answer m₀ x := by
  apply answer_congr
  intro hc
  have hend := toNat_pageEnd hstop ha
  have haligned := ha.aligned
  have hbase := x.toNat_pageBase
  apply hf.own _ (by rw [isCanonical_pageBase, hc])
  rintro ⟨hlow, hhigh⟩
  apply hx
  unfold InPages
  omega

end Pages

theorem pageBase_eq {x y : VirtualAddress} (hy : y.word.toNat % 4096 = 0)
    (hle : y.word.toNat ≤ x.word.toNat) (hlt : x.word.toNat < y.word.toNat + 4096) :
    x.pageBase = y := by
  have hbase := x.toNat_pageBase
  have hword : x.pageBase.word = y.word := by
    apply BitVec.eq_of_toNat_eq
    omega
  cases y
  cases hx : x.pageBase
  rw [hx] at hword
  exact congrArg VirtualAddress.mk hword

theorem physical_eq {t : Mapping} {x : VirtualAddress} (hsize : t.size = pageSize)
    (haligned : t.physicalBase.word.toNat % 4096 = 0)
    (hle : t.virtualBase.word.toNat ≤ x.word.toNat)
    (hlt : x.word.toNat < t.virtualBase.word.toNat + 4096) :
    t.physical x = .ok ⟨t.physicalBase.word + (x.word - t.virtualBase.word)⟩ := by
  have hoffset : (x.word - t.virtualBase.word).toNat = x.word.toNat - t.virtualBase.word.toNat :=
    BitVec.toNat_sub_of_le (BitVec.le_def.mpr hle)
  have hsub : Word.sub x.word t.virtualBase.word = .ok (x.word - t.virtualBase.word) := by
    rw [Word.sub, Word.sub?, if_pos hle]
    rfl
  have hin : x.word - t.virtualBase.word < t.size := by
    rw [hsize, BitVec.lt_def, hoffset, toNat_pageSize]
    omega
  have hsum : t.physicalBase.word.toNat + (x.word - t.virtualBase.word).toNat < 2 ^ 64 := by
    have := t.physicalBase.word.isLt
    rw [hoffset]
    omega
  unfold Mapping.physical
  rw [hsub]
  change (require (x.word - t.virtualBase.word < t.size) (.outsideMapping x t) >>= fun _ =>
    t.physicalBase.add (x.word - t.virtualBase.word)) = _
  rw [require, if_pos hin]
  change t.physicalBase.add (x.word - t.virtualBase.word) = _
  rw [PhysicalAddress.add, Word.add, Word.add?_eq, if_pos hsum]
  rfl

namespace Mapped

variable (h : Mapped S s a length o physical m₀ m)

include h

theorem answer_outside {x : VirtualAddress} (hx : ¬ InPages a length x) :
    s.answer m x = s.answer m₀ x := by
  obtain ⟨stop, hstop, ha, hf, -⟩ := h.range
  exact answer_of_framed hstop ha hf hx

theorem leaf_pageAt {i : Nat} (hi : i < pageCount length) :
    A.codec.IsLeafOf (s.leafAt m (pageAt a i).word)
      ⟨physical.word + BitVec.ofNat 64 (4096 * i)⟩ o.normalized := by
  obtain ⟨stop, hstop, ha, -, hmap, -⟩ := h.range
  have hin := inside_pageAt hstop ha hi
  have hleaf := hmap _ (ha.isPage hin)
  have hend := toNat_pageEnd hstop ha
  have hy := toNat_pageAt hstop ha hi
  rwa [if_pos (by omega), pageAt_add_distance] at hleaf

theorem answer_pageAt {i : Nat} (hi : i < pageCount length) {x : VirtualAddress}
    (hle : (pageAt a i).word.toNat ≤ x.word.toNat)
    (hlt : x.word.toNat < (pageAt a i).word.toNat + 4096) :
    s.answer m x = .ok (some (pageMapping a o physical i)) := by
  obtain ⟨stop, hstop, ha, -, -⟩ := h.range
  have hleaf := h.leaf_pageAt hi
  have hin := inside_pageAt hstop ha hi
  have hbase : x.pageBase = pageAt a i := pageBase_eq hin.aligned hle hlt
  rw [answer_of_inside ha (hbase ▸ hin), hbase, mapping?_pageAt hleaf]

/-- Each byte of the range is led to its place in the physical range. -/
theorem physical_pageAt {i : Nat} (hi : i < pageCount length) {x : VirtualAddress}
    (hle : (pageAt a i).word.toNat ≤ x.word.toNat)
    (hlt : x.word.toNat < (pageAt a i).word.toNat + 4096) :
    (pageMapping a o physical i).physical x = .ok ⟨physical.word + (x.word - a.word)⟩ := by
  have haligned := (PhysicalAddress.isPageAligned_iff _).mp (h.leaf_pageAt hi).2.1
  rw [physical_eq rfl haligned hle hlt]
  have hword : physical.word + BitVec.ofNat 64 (4096 * i) +
      (x.word - (a.word + BitVec.ofNat 64 (4096 * i))) = physical.word + (x.word - a.word) := by
    generalize BitVec.ofNat 64 (4096 * i) = k
    grind
  exact congrArg (fun w => Except.ok (PhysicalAddress.mk w)) hword

end Mapped

end AddressSpace

namespace Realm

variable {R : Realm A}

/-- A mapping that returns leads each byte of its range to its place, and leaves every lookup
of another page as it was. -/
theorem Reachable.map_lookup (h : Reachable R) (hs : s ∈ R.spaces) (hun : Unshared R.spaces s)
    (ho : o.access.any = true) {changed : Bool}
    (hok : (s.map a length o physical).outcome R.memory = .ok changed)
    (hp : ((s.map a length o physical).final R.memory).Placed A.codec) :
    (∀ i < pageCount length, ∀ x : VirtualAddress,
      (pageAt a i).word.toNat ≤ x.word.toNat → x.word.toNat < (pageAt a i).word.toNat + 4096 →
      (s.lookup x).outcome ((s.map a length o physical).final R.memory) =
        .ok (some (pageMapping a o physical i)) ∧
      (pageMapping a o physical i).physical x = .ok ⟨physical.word + (x.word - a.word)⟩) ∧
    ∀ x : VirtualAddress, ¬ InPages a length x →
      (s.lookup x).outcome ((s.map a length o physical).final R.memory) =
        (s.lookup x).outcome R.memory := by
  have htriple : Triple A.codec _ (s.map a length o physical) _ _ :=
    map_triple hs (h.wellSplit s hs) hun ho physical R.memory
  have hp₀ := hp.of_before (htriple.before R.memory)
  have hi := (h.sound hp₀).intact
  have hm := htriple.of_ok ⟨rfl, hi⟩ hp hok
  constructor
  · intro i hi x hle hlt
    rw [lookup_outcome hm.intact hs hp]
    exact ⟨hm.answer_pageAt hi hle hlt, hm.physical_pageAt hi hle hlt⟩
  · intro x hx
    rw [lookup_outcome hm.intact hs hp, lookup_outcome hi hs hp₀, hm.answer_outside hx]

/-- A space in which two pages are mapped, one of them through the last entry of its array. -/
def furnished : Realm .riscv64 :=
  (single .riscv64 0x1000000).following
    [.change (firstSpace .riscv64 0x1000000)
      (.map ⟨0x5000⟩ 0x1000 (.forUser .readWrite) ⟨0x80000000⟩),
    .change (firstSpace .riscv64 0x1000000)
      (.map ⟨0x1ff000⟩ 0x1000 (.forUser .readWrite) ⟨0x80001000⟩)]

theorem leads_furnished :
    Leads (fun _ _ => True) (single .riscv64 0x1000000) furnished :=
  Permits.leads (by decide +kernel)

/-- The last page of an array is moved to another frame, together with the first page of the next
array. The other page stays where it was. -/
theorem map_lookup_furnished :
    let s := firstSpace .riscv64 0x1000000
    let call := s.map ⟨0x1ff000⟩ 0x2000 (.forUser .readOnly) ⟨0x90000000⟩
    let m := call.final furnished.memory
    call.outcome furnished.memory = .ok true ∧
    (s.lookup ⟨0x1ffabc⟩).outcome m =
      .ok (some ⟨⟨0x1ff000⟩, ⟨0x90000000⟩, pageSize, .forUser .readOnly⟩) ∧
    (s.lookup ⟨0x200abc⟩).outcome m =
      .ok (some ⟨⟨0x200000⟩, ⟨0x90001000⟩, pageSize, .forUser .readOnly⟩) ∧
    (s.lookup ⟨0x5abc⟩).outcome m =
      .ok (some ⟨⟨0x5000⟩, ⟨0x80000000⟩, pageSize, .forUser .readWrite⟩) := by
  intro s call m
  have hreach := leads_furnished.reachable (reachable_single .riscv64 0x1000000)
  have hs : s ∈ furnished.spaces := by decide +kernel
  have hun : Unshared furnished.spaces s := by decide +kernel
  have hok : call.outcome furnished.memory = .ok true := by decide +kernel
  have hmoved := leads_furnished.call
    (c := .change s (.map ⟨0x1ff000⟩ 0x2000 (.forUser .readOnly) ⟨0x90000000⟩)) ⟨hs, hun⟩ trivial
  obtain ⟨hin, hout⟩ := hreach.map_lookup hs hun (by decide) hok
    (hmoved.placed (by decide) (by decide +kernel))
  have hold : (s.lookup ⟨0x5abc⟩).outcome furnished.memory =
      .ok (some ⟨⟨0x5000⟩, ⟨0x80000000⟩, pageSize, .forUser .readWrite⟩) := by decide +kernel
  refine ⟨hok, (hin 0 (by decide) ⟨0x1ffabc⟩ (by decide) (by decide)).1,
    (hin 1 (by decide) ⟨0x200abc⟩ (by decide) (by decide)).1, (hout ⟨0x5abc⟩ ?_).trans hold⟩
  exact fun h => absurd h.1 (by decide)

end Realm

end Sandbox
