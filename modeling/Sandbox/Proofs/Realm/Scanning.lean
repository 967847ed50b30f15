import Sandbox.Proofs.Realm.Acceptance
import Sandbox.Proofs.Realm.Reports
import Sandbox.Proofs.Walk.Segments

/-! # Scanning a space

Lookups, searches and tests for emptiness go through a space in three different ways, and they
agree on what is mapped. A search from any address finds the lowest page from there on, so going
on behind each page that was found lists all of them in ascending order, across the hole between
the halves and up to the last page. A range is empty if no lookup finds a page in it.
-/

namespace Sandbox

open AddressSpace Walk

variable {A : Architecture} {S : List (AddressSpace A)} {R : Realm A} {s : AddressSpace A}
  {m : Memory} {a : VirtualAddress} {length stop : Word} {L : List Mapping} {t t' : Mapping}

namespace AddressSpace

def FoundFrom (s : AddressSpace A) (m : Memory) (a : VirtualAddress) (t : Mapping) : Prop :=
  ∃ x : VirtualAddress, a.pageBase.word.toNat ≤ x.word.toNat ∧ (s.lookup x).outcome m = .ok (some t)

/-- The mapping of the lowest page that lookups find at or above the page of `a`, if there is
one. -/
def IsNext (s : AddressSpace A) (m : Memory) (a : VirtualAddress) : Option Mapping → Prop
  | some t => a.pageBase.word.toNat ≤ t.virtualBase.word.toNat ∧
      (s.lookup t.virtualBase).outcome m = .ok (some t) ∧
      ∀ t', s.FoundFrom m a t' → t.virtualBase.word.toNat ≤ t'.virtualBase.word.toNat
  | none => ∀ t, ¬ s.FoundFrom m a t

/-- Searches from `a` on, each from the end of what the last one found, until one finds nothing. -/
inductive Scans (s : AddressSpace A) (m : Memory) : VirtualAddress → List Mapping → Prop
  | done {a : VirtualAddress} (h : (s.lookupFirst a).outcome m = .ok none) : Scans s m a []
  | found {a next : VirtualAddress} {t : Mapping} {L : List Mapping}
      (h : (s.lookupFirst a).outcome m = .ok (some t))
      (hnext : t.virtualBase.add t.size = .ok next) (hrest : Scans s m next L) :
      Scans s m a (t :: L)

/-- The mappings of all pages that lookups find at or above the page of `a`, in ascending order. -/
structure Lists (s : AddressSpace A) (m : Memory) (a : VirtualAddress) (L : List Mapping) :
    Prop where
  ascending : L.Pairwise fun t t' => t.virtualBase.word.toNat < t'.virtualBase.word.toNat
  mem_iff : ∀ t, t ∈ L ↔ s.FoundFrom m a t
  lookup : ∀ t ∈ L, a.pageBase.word.toNat ≤ t.virtualBase.word.toNat ∧
    (s.lookup t.virtualBase).outcome m = .ok (some t)

/-! ## Several searches in a row -/

theorem leaves_scan (s : AddressSpace A) (n : Nat) (a : VirtualAddress) :
    (s.scan n a).Leaves id := by
  induction n generalizing a with
  | zero => exact .pure []
  | succ n ih =>
    apply Action.Leaves.bind (s.leaves_lookupFirst a)
    rintro (_ | t)
    · exact .pure []
    · exact .bind (.lift _) fun next => .bind (ih next) fun _ => .pure _

def scanAfter (s : AddressSpace A) (n : Nat) : Option Mapping → Action Memory (List Mapping)
  | none => return []
  | some t => do
    let next ← t.virtualBase.add t.size
    return t :: (← s.scan n next)

theorem scan_succ (s : AddressSpace A) (n : Nat) (a : VirtualAddress) :
    s.scan (n + 1) a = s.lookupFirst a >>= s.scanAfter n := by
  refine congrArg (s.lookupFirst a >>= ·) (funext fun found => ?_)
  cases found <;> rfl

theorem oblivious_scan (s : AddressSpace A) (n : Nat) (a : VirtualAddress) :
    (s.scan n a).Oblivious ∧ ∀ found, (s.scanAfter n found).Oblivious := by
  have hclosed : Action.Closed fun β (act : Action Memory β) => act.Oblivious :=
    Action.Oblivious.closed
  have hafter {n : Nat} (ih : ∀ a, (s.scan n a).Oblivious) (found : Option Mapping) :
      (s.scanAfter n found).Oblivious := by
    cases found with
    | none => exact hclosed.pure []
    | some t =>
      exact hclosed.bind (hclosed.lift _) fun next => hclosed.bind (ih next) fun _ => hclosed.pure _
  have hscan (n : Nat) (a : VirtualAddress) : (s.scan n a).Oblivious := by
    induction n generalizing a with
    | zero => exact hclosed.pure []
    | succ n ih =>
      rw [scan_succ]
      exact hclosed.bind (s.oblivious_findFirst _) (hafter ih)
  exact ⟨hscan n a, hafter (hscan n)⟩

theorem Scans.scan_outcome (h : Scans s m a L) (n : Nat) :
    (s.scan n a).outcome m = .ok (L.take n) := by
  have hsame (a : VirtualAddress) : (s.lookupFirst a).final m = m :=
    (s.leaves_lookupFirst a).final_eq m
  induction h generalizing n with
  | @done a h =>
    cases n with
    | zero => rfl
    | succ n =>
      rw [scan_succ, Action.Oblivious.outcome_bind _ (s.oblivious_scan n a).2, h, hsame]
      rfl
  | @found a next t L h hnext _ ih =>
    cases n with
    | zero => rfl
    | succ n =>
      have hcons (L : List Mapping) : (pure (t :: L) : Action Memory (List Mapping)).Oblivious :=
        Action.Oblivious.closed.pure _
      rw [scan_succ, Action.Oblivious.outcome_bind _ (s.oblivious_scan n a).2, h, hsame]
      dsimp only
      rw [scanAfter, hnext, Action.lift_ok_bind, Action.Oblivious.outcome_bind _ hcons, ih]
      rfl

end AddressSpace

namespace Realm

variable {x : VirtualAddress} {y : Word}

theorem mapping?_eq_some (ht : mapping? A y (s.leafAt m y) = some t) :
    A.codec.isValid (s.leafAt m y) = true ∧ t.virtualBase = ⟨y⟩ ∧ t.size = pageSize := by
  unfold mapping? at ht
  split at ht
  · next hv =>
    obtain rfl := Option.some.inj ht
    exact ⟨hv, rfl, rfl⟩
  · cases ht

namespace Sound

section Mapped

variable (h : Sound R) (hs : s ∈ R.spaces)

include h hs

theorem lt_maxEnd_of_maps (hy : s.Maps R.memory y) : y.toNat < maxEnd.toNat := by
  by_contra hlast
  have hv := hy.2
  rw [h.last s hs y hy.1 (Nat.le_of_not_lt hlast), A.lawful.isValid_zero] at hv
  cases hv

variable (hp : R.memory.Placed A.codec)

include hp

theorem lookup_eq_some_iff : (s.lookup x).outcome R.memory = .ok (some t) ↔
    s.Maps R.memory x.pageBase.word ∧
      mapping? A x.pageBase.word (s.leafAt R.memory x.pageBase.word) = some t := by
  rw [lookup_outcome h.intact hs hp]
  constructor
  · intro ht
    have hmaps := (h.answer_eq_some_iff hs x).mp ⟨t, ht⟩
    have hx : x.isCanonical = true := isCanonical_pageBase x ▸ hmaps.1.canonical
    rw [h.answer_of_isCanonical hs hx] at ht
    exact ⟨hmaps, Except.ok.inj ht⟩
  · rintro ⟨hmaps, ht⟩
    have hx : x.isCanonical = true := isCanonical_pageBase x ▸ hmaps.1.canonical
    rw [h.answer_of_isCanonical hs hx, ht]

theorem foundFrom_iff : s.FoundFrom R.memory a t ↔ ∃ y, s.Maps R.memory y ∧
    a.pageBase.word.toNat ≤ y.toNat ∧ mapping? A y (s.leafAt R.memory y) = some t := by
  have ha := a.toNat_pageBase
  constructor
  · rintro ⟨x, hle, hx⟩
    obtain ⟨hmaps, ht⟩ := (h.lookup_eq_some_iff hs hp).mp hx
    have hbase := x.toNat_pageBase
    exact ⟨_, hmaps, by omega, ht⟩
  · rintro ⟨y, hmaps, hle, ht⟩
    refine ⟨⟨y⟩, hle, (h.lookup_eq_some_iff hs hp).mpr ?_⟩
    rw [pageBase_of_isPage hmaps.1]
    exact ⟨hmaps, ht⟩

theorem lookup_virtualBase (hmaps : s.Maps R.memory y)
    (ht : mapping? A y (s.leafAt R.memory y) = some t) :
    (s.lookup t.virtualBase).outcome R.memory = .ok (some t) := by
  rw [(mapping?_eq_some ht).2.1, h.lookup_eq_some_iff hs hp, pageBase_of_isPage hmaps.1]
  exact ⟨hmaps, ht⟩

/-- A search finds the lowest page from its start on, wherever it starts. -/
theorem lookupFirst_isNext (a : VirtualAddress) :
    ∃ r, (s.lookupFirst a).outcome R.memory = .ok r ∧ s.IsNext R.memory a r := by
  have hbase := a.toNat_pageBase
  have hstart : a.pageBase.word.toNat % 4096 = 0 := by omega
  have hin (y : Word) : (∃ r ∈ Canonical.segments a.pageBase.word maxEnd, Inside r.1 r.2 y) ↔
      IsPage y ∧ a.pageBase.word.toNat ≤ y.toNat ∧ y.toNat < maxEnd.toNat := by
    rw [Canonical.exists_inside_segments_iff hstart Canonical.isTop_maxEnd]
    exact ⟨fun ⟨hal, hc, hle⟩ => ⟨⟨hal, hc⟩, hle⟩, fun ⟨hy, hle⟩ => ⟨hy.aligned, hy.canonical, hle⟩⟩
  have hahead {y : Word} (hmaps : s.Maps R.memory y) (hle : a.pageBase.word.toNat ≤ y.toNat) :
      ∃ r ∈ Canonical.segments a.pageBase.word maxEnd, Inside r.1 r.2 y :=
    (hin y).mpr ⟨hmaps.1, hle, h.lt_maxEnd_of_maps hs hmaps⟩
  obtain ⟨r, hout, hsearched⟩ := findFirst_outcome h.intact hs hp
    (fun r hr => (Canonical.accepted_of_mem_segments hstart Canonical.isTop_maxEnd hr).1)
    (Canonical.pairwise_segments a.pageBase.word maxEnd)
  refine ⟨r, hout, ?_⟩
  cases hsearched with
  | @first x t hx ht hle =>
    obtain ⟨hpage, hax, -⟩ := (hin x).mp hx
    obtain ⟨hv, hbase, -⟩ := mapping?_eq_some ht
    refine ⟨by rwa [hbase], h.lookup_virtualBase hs hp ⟨hpage, hv⟩ ht, fun t' ht' => ?_⟩
    obtain ⟨y, hmaps, hay, hty⟩ := (h.foundFrom_iff hs hp).mp ht'
    rw [hbase, (mapping?_eq_some hty).2.1]
    exact hle y (hahead hmaps hay) hmaps.2
  | none hnone =>
    intro t ht
    obtain ⟨y, hmaps, hay, -⟩ := (h.foundFrom_iff hs hp).mp ht
    cases (hnone y (hahead hmaps hay)).symm.trans hmaps.2

theorem lists_cons {next : VirtualAddress} (hnext : s.IsNext R.memory a (some t))
    (hstart : next.word.toNat = t.virtualBase.word.toNat + 4096)
    (hrest : s.Lists R.memory next L) : s.Lists R.memory a (t :: L) := by
  obtain ⟨hle, hlookup, hfirst⟩ := hnext
  have hbase := next.toNat_pageBase
  obtain ⟨y, hmaps, -, ht⟩ :=
    (h.foundFrom_iff hs hp (a := a)).mp ⟨t.virtualBase, hle, hlookup⟩
  have hty := (mapping?_eq_some ht).2.1
  have haligned : t.virtualBase.word.toNat % 4096 = 0 := by
    rw [hty]
    exact hmaps.1.aligned
  constructor
  · rw [List.pairwise_cons]
    refine ⟨fun t' ht' => ?_, hrest.ascending⟩
    have hafter := (hrest.lookup t' ht').1
    omega
  · intro t'
    rw [List.mem_cons, hrest.mem_iff, h.foundFrom_iff hs hp, h.foundFrom_iff hs hp]
    constructor
    · rintro (rfl | ⟨z, hz, hnz, htz⟩)
      · exact ⟨y, hmaps, by rwa [hty] at hle, ht⟩
      · exact ⟨z, hz, by omega, htz⟩
    · rintro ⟨z, hz, haz, htz⟩
      have htz' := (mapping?_eq_some htz).2.1
      have hyz := hfirst t' ((h.foundFrom_iff hs hp).mpr ⟨z, hz, haz, htz⟩)
      rw [hty, htz'] at hyz
      rcases Nat.eq_or_lt_of_le hyz with heq | hlt
      · obtain rfl := BitVec.eq_of_toNat_eq heq
        exact Or.inl (Option.some.inj (htz.symm.trans ht))
      · have hya := hmaps.1.aligned
        have hza := hz.1.aligned
        rw [hty] at hstart
        dsimp only at hstart hlt
        exact Or.inr ⟨z, hz, by omega, htz⟩
  · intro t' ht'
    rcases List.mem_cons.mp ht' with rfl | ht'
    · exact ⟨hle, hlookup⟩
    · obtain ⟨hafter, hfound⟩ := hrest.lookup t' ht'
      exact ⟨by omega, hfound⟩

/-- Going on behind each page that was found lists all pages from an address on. -/
theorem exists_scan (a : VirtualAddress) :
    ∃ L, s.Scans R.memory a L ∧ s.Lists R.memory a L := by
  -- Each search starts further up than the one before it.
  induction hn : 2 ^ 64 - a.pageBase.word.toNat using Nat.strongRecOn generalizing a with
  | _ n ih =>
    subst hn
    obtain ⟨found, hout, hnext⟩ := h.lookupFirst_isNext hs hp a
    cases found with
    | none =>
      refine ⟨[], .done hout, .nil, fun t => ?_, nofun⟩
      exact ⟨nofun, fun ht => (hnext t ht).elim⟩
    | some t =>
      have ⟨hle, hlookup, _⟩ := hnext
      obtain ⟨y, hmaps, -, ht⟩ :=
        (h.foundFrom_iff hs hp (a := a)).mp ⟨t.virtualBase, hle, hlookup⟩
      obtain ⟨-, hbase, hsize⟩ := mapping?_eq_some ht
      have hlast := h.lt_maxEnd_of_maps hs hmaps
      have hya := hmaps.1.aligned
      rw [toNat_maxEnd] at hlast
      have hsum : t.virtualBase.word.toNat + t.size.toNat < 2 ^ 64 := by
        rw [hbase, hsize, toNat_pageSize]
        dsimp only
        omega
      have hadd : t.virtualBase.add t.size = .ok ⟨t.virtualBase.word + t.size⟩ := by
        rw [VirtualAddress.add, Word.add, Word.add?_eq, if_pos hsum]
        rfl
      have hstart : (t.virtualBase.word + t.size).toNat = t.virtualBase.word.toNat + 4096 := by
        rw [BitVec.toNat_add, Nat.mod_eq_of_lt hsum, hsize, toNat_pageSize]
      have hnextBase := (VirtualAddress.mk (t.virtualBase.word + t.size)).toNat_pageBase
      dsimp only at hnextBase
      obtain ⟨L, hscans, hlists⟩ := ih _ (by omega) ⟨t.virtualBase.word + t.size⟩ rfl
      exact ⟨t :: L, .found hout hadd hscans, h.lists_cons hs hp hnext hstart hlists⟩

/-! ### Empty ranges -/

theorem lookup_of_inPages (hstop : stop.toNat = a.word.toNat + length.toNat)
    (ha : Accepted a.word stop) (hx : InPages a length x) : (s.lookup x).outcome R.memory =
      .ok (mapping? A x.pageBase.word (s.leafAt R.memory x.pageBase.word)) :=
  (lookup_outcome h.intact hs hp x).trans (answer_of_inside ha (hx.inside hstop ha) R.memory)

theorem vacant_iff_leafAt (hstop : stop.toNat = a.word.toNat + length.toNat)
    (ha : Accepted a.word stop) : Change.Vacant s R.memory a length ↔
      ∀ y, Inside a.word stop y → A.codec.isValid (s.leafAt R.memory y) = false := by
  constructor
  · intro hv y hy
    have hbase := pageBase_of_isPage (ha.isPage hy)
    have hin : InPages a length ⟨y⟩ := by
      rw [inPages_iff_covers hstop ha, hbase]
      exact ⟨hy.le, hy.lt_pageEnd⟩
    have hnone := (h.lookup_of_inPages hs hp hstop ha hin).symm.trans (hv _ hin)
    rw [hbase] at hnone
    by_contra hmapped
    rw [Except.ok.injEq, mapping?_of_isValid (Bool.eq_true_of_not_eq_false hmapped)] at hnone
    cases hnone
  · intro hnone x hx
    rw [h.lookup_of_inPages hs hp hstop ha hx, mapping?_eq_none (hnone _ (hx.inside hstop ha))]

theorem vacant_iff_pageAt (hw : Walkable a length) : Change.Vacant s R.memory a length ↔
    ∀ i < pageCount length, (s.lookup (pageAt a i)).outcome R.memory = .ok none := by
  obtain ⟨stop, hb, ha⟩ := hw.exists_stop
  have hstop := (bounds_eq_ok hb).2
  have hpage {i : Nat} (hi : i < pageCount length) : InPages a length (pageAt a i) := by
    have hin := inside_pageAt hstop ha hi
    rw [inPages_iff_covers hstop ha, pageBase_of_isPage (ha.isPage hin)]
    exact ⟨hin.le, hin.lt_pageEnd⟩
  refine ⟨fun hv i hi => hv _ (hpage hi), fun hnone x hx => ?_⟩
  obtain ⟨i, hi, hbase⟩ := exists_pageAt hstop ha (hx.inside hstop ha)
  have hi' := hnone i hi
  rw [h.lookup_of_inPages hs hp hstop ha (hpage hi), ← hbase,
    pageBase_of_isPage (ha.isPage (hx.inside hstop ha))] at hi'
  rw [h.lookup_of_inPages hs hp hstop ha hx, hi']

theorem isEmpty_iff_vacant (hw : Walkable a length) :
    ∃ empty, (s.isEmpty a length).outcome R.memory = .ok empty ∧
      (empty = true ↔ Change.Vacant s R.memory a length) := by
  obtain ⟨stop, hb, ha⟩ := hw.exists_stop
  obtain ⟨occupied, hout, hfound⟩ := spots_occupied.inspect_outcome h.intact hs hp ha false
  refine ⟨!occupied, ?_, ?_⟩
  · rw [outcome_isEmpty s R.memory hb, hout]
  · rw [h.vacant_iff_leafAt hs hp (bounds_eq_ok hb).2 ha]
    cases hfound with
    | first hx =>
      refine iff_of_false Bool.false_ne_true fun hnone => ?_
      cases (hnone _ hx.inside).symm.trans hx.isValid
    | none hnone => exact iff_of_true rfl hnone

theorem unmap_eq_false_iff_vacant (hun : Unshared R.spaces s) (hacc : s.Accepts a length) :
    (s.unmap a length).outcome R.memory = .ok false ↔ Change.Vacant s R.memory a length := by
  obtain ⟨changed, hok, -⟩ := unmap_returns h.intact hs hun hp hacc
  have hp' := hp.of_supply ((leaves_unmap s a length).final_eq R.memory)
  have hcleared := Change.vacant_of_unmap h.intact hs hun hp hacc
  have hreports : changed = true ↔
      Change.Replaces s a length R.memory ((s.unmap a length).final R.memory) :=
    Change.reports (.unmap a length) h.intact hs hun hp' hok
  obtain ⟨stop, -, hm, ha⟩ := hacc.exists_stop
  rw [hok, Except.ok.injEq, ← Bool.not_eq_true, hreports]
  constructor
  · intro hkept x hx
    have hlookup := h.lookup_of_inPages hs hp hm.stop_eq ha hx
    cases hmapping : mapping? A x.pageBase.word (s.leafAt R.memory x.pageBase.word) with
    | none => rw [hlookup, hmapping]
    | some t =>
      rw [hmapping] at hlookup
      refine (hkept ⟨x, t, hx, hlookup, ?_⟩).elim
      rw [hcleared x hx]
      nofun
  · rintro hvacant ⟨x, t, hx, ht, -⟩
    cases (hvacant x hx).symm.trans ht

end Mapped

end Sound

/-- Searches return from every address, change nothing and find the lowest page from there on.
One after the other they list all pages in ascending order. A range that can be walked is empty if
no page of it is found, which is when unmapping it would report nothing. -/
theorem Reachable.scans (h : Reachable R) (hp : R.memory.Placed A.codec) (hs : s ∈ R.spaces) :
    (∀ a, (s.lookupFirst a).final R.memory = R.memory ∧
      ∃ found, (s.lookupFirst a).outcome R.memory = .ok found ∧ s.IsNext R.memory a found) ∧
    (∀ a, ∃ L, s.Scans R.memory a L ∧ s.Lists R.memory a L ∧
      ∀ n, (s.scan n a).outcome R.memory = .ok (L.take n) ∧ (s.scan n a).final R.memory = R.memory) ∧
    ∀ a length, Walkable a length → (s.isEmpty a length).final R.memory = R.memory ∧
      ∃ empty, (s.isEmpty a length).outcome R.memory = .ok empty ∧
        (empty = true ↔
          ∀ i < pageCount length, (s.lookup (pageAt a i)).outcome R.memory = .ok none) ∧
        (Unshared R.spaces s → s.Admits a length →
          (empty = true ↔ (s.unmap a length).outcome R.memory = .ok false)) := by
  have hsound := h.sound hp
  refine ⟨fun a => ⟨(s.leaves_lookupFirst a).final_eq R.memory, hsound.lookupFirst_isNext hs hp a⟩,
    fun a => ?_, fun a length hw => ⟨(s.leaves_isEmpty a length).final_eq R.memory, ?_⟩⟩
  · obtain ⟨L, hscans, hlists⟩ := hsound.exists_scan hs hp a
    exact ⟨L, hscans, hlists, fun n => ⟨hscans.scan_outcome n, (s.leaves_scan n a).final_eq _⟩⟩
  · obtain ⟨empty, hout, hvacant⟩ := hsound.isEmpty_iff_vacant hs hp hw
    refine ⟨empty, hout, hvacant.trans (hsound.vacant_iff_pageAt hs hp hw), fun hun hadmits => ?_⟩
    rw [hvacant, hsound.unmap_eq_false_iff_vacant hs hp hun (accepts_iff.mpr hadmits)]

/-- The only page is found on the way up from address 0, and so neither is its range empty nor
does unmapping it report nothing. -/
theorem scans_crowded :
    let s := firstSpace .riscv64 0x1000000
    (∃ L, s.Scans crowded.memory ⟨0⟩ L ∧
      ⟨⟨0x5000⟩, ⟨0x80000000⟩, pageSize, .forUser .readWrite⟩ ∈ L) ∧
    (s.isEmpty ⟨0x5000⟩ 0x1000).outcome crowded.memory = .ok false ∧
    (s.unmap ⟨0x5000⟩ 0x1000).outcome crowded.memory ≠ .ok false := by
  intro s
  obtain ⟨hreach, hbefore⟩ := reachable_crowded
  obtain ⟨-, hscan, hempty⟩ := hreach.scans
    (placed_startingAt hbefore (by decide) (by decide +kernel)) (s := s) List.mem_cons_self
  have hfound : (s.lookup ⟨0x5000⟩).outcome crowded.memory =
      .ok (some ⟨⟨0x5000⟩, ⟨0x80000000⟩, pageSize, .forUser .readWrite⟩) := by decide +kernel
  have hadmits : s.Admits ⟨0x5000⟩ 0x1000 :=
    accepts_iff.mp ⟨0x5000, 0x6000, by decide, by decide⟩
  obtain ⟨L, hscans, hlists, -⟩ := hscan ⟨0⟩
  obtain ⟨-, empty, hout, hpages, hunmap⟩ := hempty ⟨0x5000⟩ 0x1000 hadmits.toWalkable
  have hoccupied : ¬ empty = true := by
    rw [hpages]
    intro hnone
    cases hfound.symm.trans (hnone 0 (by decide))
  refine ⟨⟨L, hscans, (hlists.mem_iff _).mpr ⟨⟨0x5000⟩, by decide, hfound⟩⟩, ?_, ?_⟩
  · rw [hout, Bool.eq_false_iff.mpr hoccupied]
  · rwa [Ne, ← hunmap (unshared_single .riscv64 0x1000000) hadmits]

end Realm

end Sandbox
