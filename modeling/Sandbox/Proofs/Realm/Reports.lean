import Sandbox.Proofs.Realm.Shortage

/-! # Reported changes

Whoever changes a space learns whether cached mappings have become wrong: the result of a change
is `true` exactly if a page of its range was mapped and is now mapped differently or not at all.
Options are compared as they are stored, so a change that asks for what is there reports nothing.
-/

namespace Sandbox

open AddressSpace Walk

variable {A : Architecture} {S : List (AddressSpace A)} {s : AddressSpace A} {m : Memory}
  {a : VirtualAddress} {length : Word} {o : MapOptions} {physical : PhysicalAddress}
  {changed : Bool}

namespace Change

def Vacant (s : AddressSpace A) (m : Memory) (a : VirtualAddress) (length : Word) : Prop :=
  ∀ x, InPages a length x → (s.lookup x).outcome m = .ok none

/-- What the change asks for is there. Without access it asks for nothing to be mapped. -/
def Holds (s : AddressSpace A) (m : Memory) : Change → Prop
  | map a length o physical =>
    if o.access.any then
      ∀ i < pageCount length, ∀ x : VirtualAddress, x.pageBase = pageAt a i →
        (s.lookup x).outcome m = .ok (some (pageMapping a o physical i))
    else Vacant s m a length
  | unmap a length => Vacant s m a length
  | protect a length o =>
    if o.access.any then
      ∀ x t, InPages a length x → (s.lookup x).outcome m = .ok (some t) → t.opts = o.normalized
    else Vacant s m a length

/-- A page of the range was mapped, and a lookup of it finds something else or nothing now. -/
def Replaces (s : AddressSpace A) (a : VirtualAddress) (length : Word) (m m' : Memory) : Prop :=
  ∃ x t, InPages a length x ∧ (s.lookup x).outcome m = .ok (some t) ∧
    (s.lookup x).outcome m' ≠ .ok (some t)

/-- A change that returns reports whether it replaced a page. -/
theorem reports (ch : Change) (hi : Intact S m) (hs : s ∈ S) (hun : Unshared S s)
    (hp : ((ch.run s).final m).Placed A.codec) (hok : (ch.run s).outcome m = .ok changed) :
    changed = true ↔ Replaces s ch.range.1 ch.range.2 m ((ch.run s).final m) := by
  have hp₀ := ch.placed hs (hi.split s hs) hun hp
  obtain ⟨stop, hb, hm, ha⟩ := (ch.accepts hok).exists_stop
  obtain ⟨v, hv, hwalk⟩ := ch.exists_walk hok hb
  have he := (hi.split s hs).editable hun ha hm.stop_le
  have htriple := report_triple hs he ha hv m
  rw [← hwalk] at htriple
  obtain ⟨hi', hreported⟩ := htriple.of_ok ⟨rfl, hi⟩ hp hok
  have hanswer {x : VirtualAddress} (hx : Inside ch.range.1.word stop x.pageBase.word) :
      (s.lookup x).outcome m = .ok (mapping? A x.pageBase.word (s.leafAt m x.pageBase.word)) ∧
      (s.lookup x).outcome ((ch.run s).final m) =
        .ok (mapping? A x.pageBase.word (s.leafAt ((ch.run s).final m) x.pageBase.word)) := by
    rw [lookup_outcome hi hs hp₀, lookup_outcome hi' hs hp, answer_of_inside ha hx,
      answer_of_inside ha hx]
    exact ⟨rfl, rfl⟩
  rw [hreported.iff]
  constructor
  · rintro ⟨y, hy, hcov, hrep⟩
    obtain ⟨t, ht, hne⟩ := replaced_iff.mp hrep
    have hbase := Realm.pageBase_of_isPage hy
    have hin : InPages ch.range.1 ch.range.2 ⟨y⟩ := by
      rw [Realm.inPages_iff_covers hm.stop_eq ha, hbase]
      exact hcov
    obtain ⟨hold, hnew⟩ := hanswer (hin.inside hm.stop_eq ha)
    rw [hbase] at hold hnew
    refine ⟨⟨y⟩, t, hin, hold.trans (congrArg Except.ok ht), fun heq => ?_⟩
    exact hne (Except.ok.inj (hnew.symm.trans heq))
  · rintro ⟨x, t, hx, hold, hnew⟩
    have hin := hx.inside hm.stop_eq ha
    obtain ⟨hold', hnew'⟩ := hanswer hin
    refine ⟨x.pageBase.word, ha.isPage hin, ⟨hin.le, hin.lt_pageEnd⟩, replaced_iff.mpr ⟨t, ?_, ?_⟩⟩
    · exact Except.ok.inj (hold'.symm.trans hold)
    · intro heq
      exact hnew (hnew'.trans (congrArg Except.ok heq))

/-! ## What is there afterwards -/

theorem vacant_of_unmap (hi : Intact S m) (hs : s ∈ S) (hun : Unshared S s)
    (hp : m.Placed A.codec) (hacc : s.Accepts a length) :
    Vacant s ((s.unmap a length).final m) a length := by
  intro x hx
  obtain ⟨t, -, ht⟩ := (unmap_amends hi hs hun hp hacc).inside x hx
  exact ht

theorem holds_of_ok (ch : Change) (hi : Intact S m) (hs : s ∈ S) (hun : Unshared S s)
    (hp : ((ch.run s).final m).Placed A.codec) (hok : (ch.run s).outcome m = .ok changed) :
    ch.Holds s ((ch.run s).final m) := by
  have hp₀ := ch.placed hs (hi.split s hs) hun hp
  have hacc := ch.accepts hok
  cases ch with
  | map a length o physical =>
    change if o.access.any = true then _ else
      Vacant s ((s.map a length o physical).final m) a length
    split
    · next ho =>
      have hm := (map_triple hs (hi.split s hs) hun ho physical m).of_ok ⟨rfl, hi⟩ hp hok
      intro i hik x hx
      have hbase := x.toNat_pageBase
      refine (lookup_outcome hm.intact hs hp x).trans ?_
      apply hm.answer_pageAt hik <;> rw [← hx] <;> omega
    · next ho =>
      rw [map_eq_unmap s a length (Bool.eq_false_iff.mpr ho)]
      exact vacant_of_unmap hi hs hun hp₀ hacc
  | unmap a length => exact vacant_of_unmap hi hs hun hp₀ hacc
  | protect a length o =>
    change if o.access.any = true then _ else Vacant s ((s.protect a length o).final m) a length
    split
    · next ho =>
      intro x t hx ht
      obtain ⟨t', -, ht'⟩ := (protect_amends hi hs hun hp₀ hacc ho).inside x hx
      have hsome := Except.ok.inj (ht'.symm.trans ht)
      obtain ⟨t₀, -, rfl⟩ := Option.map_eq_some_iff.mp hsome
      rfl
    · next ho =>
      rw [protect_eq_unmap s a length (Bool.eq_false_iff.mpr ho)]
      exact vacant_of_unmap hi hs hun hp₀ hacc

end Change

/-! ## Asking for what is there -/

namespace Realm

variable {R : Realm A}

theorem Sound.missing_eq_empty (h : Sound R) (hp : R.memory.Placed A.codec) (hs : s ∈ R.spaces)
    (hun : Unshared R.spaces s) (hacc : s.Accepts a length)
    (hall : ∀ x, InPages a length x → ∃ t, (s.lookup x).outcome R.memory = .ok (some t)) :
    s.missing R.memory a length = ∅ := by
  obtain ⟨stop, -, hm, ha⟩ := hacc.exists_stop
  have he := (h.intact.split s hs).editable hun ha hm.stop_le
  rw [Set.eq_empty_iff_forall_notMem]
  rintro q ⟨⟨x, hx, hsuf⟩, hq⟩
  obtain ⟨t, ht⟩ := hall x hx
  rw [lookup_outcome h.intact hs hp] at ht
  have hmaps := (h.answer_eq_some_iff hs x).mp ⟨t, ht⟩
  rw [← path_pageBase] at hsuf
  exact hq (hmaps.exists_owns (he.ownsSlot _ (hx.inside hm.stop_eq ha)) hsuf)

theorem Sound.framesFit (h : Sound R) (hp : R.memory.Placed A.codec) (hs : s ∈ R.spaces)
    (hacc : s.Accepts a length)
    (hmapped : ∀ i < pageCount length,
      (s.lookup (pageAt a i)).outcome R.memory = .ok (some (pageMapping a o physical i))) :
    FramesFit A.codec physical length := by
  obtain ⟨stop, -, hm, ha⟩ := hacc.exists_stop
  intro i hik
  have hin := inside_pageAt hm.stop_eq ha hik
  have hbase : (pageAt a i).pageBase = pageAt a i :=
    pageBase_eq hin.aligned (Nat.le_refl _) (Nat.lt_add_of_pos_right (by decide))
  have hlookup := hmapped i hik
  rw [lookup_outcome h.intact hs hp, answer_of_inside ha (hbase.symm ▸ hin), hbase] at hlookup
  have hmapping := Except.ok.inj hlookup
  rcases h.intact.leafAt_zero_or_leaf hs (pageAt a i).word with h0 | ⟨b, o', hleaf⟩
  · rw [h0, mapping?_eq_none A.lawful.isValid_zero] at hmapping
    cases hmapping
  · rw [mapping?_of_isValid (hleaf.isValid A.lawful), hleaf.address_eq A.lawful] at hmapping
    obtain rfl : b = ⟨physical.word + BitVec.ofNat 64 (4096 * i)⟩ :=
      congrArg Mapping.physicalBase (Option.some.inj hmapping)
    exact ⟨hleaf.2.1, (EntryCodec.compose_eq_ok_iff.mp hleaf.2.2).1⟩

theorem Sound.returns_of_holds (h : Sound R) (hs : s ∈ R.spaces) (hun : Unshared R.spaces s)
    (ch : Change) (hp : ((ch.run s).final R.memory).Placed A.codec)
    (hacc : s.Accepts ch.range.1 ch.range.2) (hold : ch.Holds s R.memory) :
    ∃ changed, (ch.run s).outcome R.memory = .ok changed := by
  have hi := h.intact
  have hp₀ := ch.placed hs (hi.split s hs) hun hp
  cases ch with
  | map a length o physical =>
    change s.Accepts a length at hacc
    change ∃ changed, (s.map a length o physical).outcome R.memory = .ok changed
    by_cases ho : o.access.any = true
    · replace hold : ∀ i < pageCount length, ∀ x : VirtualAddress, x.pageBase = pageAt a i →
          (s.lookup x).outcome R.memory = .ok (some (pageMapping a o physical i)) := by
        rwa [Change.Holds, if_pos ho] at hold
      obtain ⟨stop, -, hm, ha⟩ := hacc.exists_stop
      have hbase {i : Nat} (hik : i < pageCount length) : (pageAt a i).pageBase = pageAt a i :=
        pageBase_of_isPage (ha.isPage (inside_pageAt hm.stop_eq ha hik))
      have hfit := h.framesFit hp₀ hs hacc fun i hik => hold i hik _ (hbase hik)
      have hmissing := h.missing_eq_empty hp₀ hs hun hacc fun x hx => by
        obtain ⟨i, hik, hxi⟩ := exists_pageAt hm.stop_eq ha (hx.inside hm.stop_eq ha)
        exact ⟨_, hold i hik x hxi⟩
      rcases map_returns_or_cutShort hi hs hun ho hacc hfit hp with hok | ⟨hroom, -⟩
      · exact hok.2
      · rw [hmissing, Set.ncard_empty] at hroom
        exact absurd (Or.inl rfl) hroom
    · rw [map_eq_unmap s a length (Bool.eq_false_iff.mpr ho)]
      exact (unmap_amends hi hs hun hp₀ hacc).returns
  | unmap a length => exact (unmap_amends hi hs hun hp₀ hacc).returns
  | protect a length o =>
    change ∃ changed, (s.protect a length o).outcome R.memory = .ok changed
    by_cases ho : o.access.any = true
    · exact (protect_amends hi hs hun hp₀ hacc ho).returns
    · rw [protect_eq_unmap s a length (Bool.eq_false_iff.mpr ho)]
      exact (unmap_amends hi hs hun hp₀ hacc).returns

end Realm

namespace Change

theorem not_replaces_of_holds (ch : Change) (hi : Intact S m) (hs : s ∈ S) (hun : Unshared S s)
    (hp : ((ch.run s).final m).Placed A.codec) (hok : (ch.run s).outcome m = .ok changed)
    (hold : ch.Holds s m) : ¬ Replaces s ch.range.1 ch.range.2 m ((ch.run s).final m) := by
  rintro ⟨x, t, hx, ht, hne⟩
  have hp₀ := ch.placed hs (hi.split s hs) hun hp
  have hacc := ch.accepts hok
  have hnew := ch.holds_of_ok hi hs hun hp hok
  have hvacant {a : VirtualAddress} {length : Word} (h : Vacant s m a length)
      (hx : InPages a length x) : False := by
    cases (h x hx).symm.trans ht
  cases ch with
  | map a length o physical =>
    by_cases ho : o.access.any = true
    · rw [Holds, if_pos ho] at hold hnew
      obtain ⟨stop, -, hm, ha⟩ := hacc.exists_stop
      obtain ⟨i, hik, hxi⟩ := exists_pageAt hm.stop_eq ha (hx.inside hm.stop_eq ha)
      exact hne ((hnew i hik x hxi).trans ((hold i hik x hxi).symm.trans ht))
    · rw [Holds, if_neg ho] at hold
      exact hvacant hold hx
  | unmap a length => exact hvacant hold hx
  | protect a length o =>
    by_cases ho : o.access.any = true
    · rw [Holds, if_pos ho] at hold
      obtain ⟨t', hold', hnew'⟩ := (protect_amends hi hs hun hp₀ hacc ho).inside x hx
      obtain rfl := Except.ok.inj (hold'.symm.trans ht)
      apply hne
      rw [← hold x t hx ht] at hnew'
      exact hnew'
    · rw [Holds, if_neg ho] at hold
      exact hvacant hold hx

end Change

namespace Realm

variable {R : Realm A}

/-- A change that returns reports exactly whether a page that was mapped is not mapped as
before, and what it asked for is there. Asking for what is there returns, and reports nothing. -/
theorem Reachable.reports_changes (h : Reachable R) (hs : s ∈ R.spaces)
    (hun : Unshared R.spaces s) (ch : Change) (hp : ((ch.run s).final R.memory).Placed A.codec) :
    (∀ changed, (ch.run s).outcome R.memory = .ok changed →
      (changed = true ↔
        Change.Replaces s ch.range.1 ch.range.2 R.memory ((ch.run s).final R.memory)) ∧
      ch.Holds s ((ch.run s).final R.memory)) ∧
    (s.Accepts ch.range.1 ch.range.2 → ch.Holds s R.memory →
      (ch.run s).outcome R.memory = .ok false) := by
  have hsound := h.sound (hp.of_before
    ((ch.run_triple hs (h.wellSplit s hs) hun R.memory).before R.memory))
  have hi := hsound.intact
  constructor
  · exact fun changed hok => ⟨ch.reports hi hs hun hp hok, ch.holds_of_ok hi hs hun hp hok⟩
  · intro hacc hold
    obtain ⟨changed, hok⟩ := hsound.returns_of_holds hs hun ch hp hacc hold
    cases changed with
    | false => exact hok
    | true =>
      have hrep := (ch.reports hi hs hun hp hok).mp rfl
      exact absurd hrep (ch.not_replaces_of_holds hi hs hun hp hok hold)

/-- A page that only write access is asked for can be read as well. Asking for it again reports
nothing, and moving it to another frame is reported. -/
theorem reports_changes_writeOnly :
    let s := firstSpace .riscv64 0x1000000
    let ch := Change.map ⟨0x5000⟩ 0x1000 (.forUser ⟨false, true, false⟩) ⟨0x80000000⟩
    let moved := Change.map ⟨0x5000⟩ 0x1000 (.forUser ⟨false, true, false⟩) ⟨0x90000000⟩
    let m := (ch.run s).final (single .riscv64 0x1000000).memory
    (s.lookup ⟨0x5abc⟩).outcome m =
      .ok (some ⟨⟨0x5000⟩, ⟨0x80000000⟩, pageSize, .forUser .readWrite⟩) ∧
    (ch.run s).outcome m = .ok false ∧
    Change.Replaces s ⟨0x5000⟩ 0x1000 m ((moved.run s).final m) := by
  intro s ch moved m
  have hun := unshared_single .riscv64 0x1000000
  have hstart := reachable_single .riscv64 0x1000000
  have hfirst : Leads (fun _ _ => True) (single .riscv64 0x1000000)
      ⟨m, (single .riscv64 0x1000000).spaces⟩ :=
    .call (c := .change s ch) .refl ⟨List.mem_cons_self, hun⟩ trivial
  have hreach := hfirst.reachable hstart
  have hagain := hfirst.call (c := .change s ch) ⟨List.mem_cons_self, hun⟩ trivial
  have hmoved := hfirst.call (c := .change s moved) ⟨List.mem_cons_self, hun⟩ trivial
  have hplaced : m.Placed Architecture.riscv64.codec :=
    hfirst.placed (by decide) (by decide +kernel)
  obtain ⟨hret, -⟩ := hstart.reports_changes List.mem_cons_self hun ch hplaced
  have hholds : ch.Holds s m := (hret false (by decide +kernel)).2
  obtain ⟨-, hquiet⟩ := hreach.reports_changes List.mem_cons_self hun ch
    (hagain.placed (by decide) (by decide +kernel))
  obtain ⟨hloud, -⟩ := hreach.reports_changes List.mem_cons_self hun moved
    (hmoved.placed (by decide) (by decide +kernel))
  refine ⟨hholds 0 (by decide) ⟨0x5abc⟩ (by decide), ?_, ?_⟩
  · have hacc : s.Accepts ⟨0x5000⟩ 0x1000 := ⟨0x5000, 0x6000, by decide, by decide⟩
    exact hquiet hacc hholds
  · exact (hloud true (by decide +kernel)).1.mp rfl

end Realm

end Sandbox
