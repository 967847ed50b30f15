import Sandbox.Proofs.Realm.Mapping
import Sandbox.Proofs.Space.Reports

/-! # What unmapping and changing permissions establish

Both calls return on every range that is accepted, and neither asks for an array, so they do
as well when none is left to be had. Each page of the range loses its mapping or gets the
new options, and no lookup of another page notices.
-/

namespace Sandbox

open AddressSpace Walk

variable {A : Architecture} {S : List (AddressSpace A)} {s : AddressSpace A} {m m' m₀ : Memory}
  {a : VirtualAddress} {length start stop : Word} {o : MapOptions} {w w₀ : Word}

theorem Memory.Placed.of_supply {c : EntryCodec} (h : m.Placed c) (hs : m'.supply = m.supply) :
    m'.Placed c := by
  obtain ⟨-, hs⟩ := Prod.mk.inj hs
  obtain ⟨hfresh, hplace⟩ := Prod.mk.inj hs
  unfold Memory.Placed
  rw [hfresh, hplace]
  exact h

/-- An action that asks for no array and that no error stops returns. -/
theorem Triple.returns {β : Type} {c : EntryCodec} {P : Memory → Prop} {act : Action Memory β}
    {Q : β → Memory → Prop} (h : Triple c P act Q fun _ _ => False)
    (hact : act.Leaves Memory.supply) (hpre : P m) (hp : m.Placed c) :
    ∃ r, act.outcome m = .ok r ∧ Q r (act.final m) := by
  have hp' := hp.of_supply (hact.final_eq m)
  cases hout : act.outcome m with
  | ok r => exact ⟨r, rfl, h.of_ok hpre hp' hout⟩
  | error e => exact (h.of_error hpre hp' hout).elim

namespace AddressSpace

def Accepts (s : AddressSpace A) (a : VirtualAddress) (length : Word) : Prop :=
  ∃ start stop, s.mutableBounds a length = .ok (start, stop) ∧ accept start stop = .ok ()

theorem Accepts.exists_stop (h : s.Accepts a length) : ∃ stop,
    s.mutableBounds a length = .ok (a.word, stop) ∧ s.Mutable a length a.word stop ∧
      Accepted a.word stop := by
  obtain ⟨start, stop, hb, hacc⟩ := h
  obtain ⟨start', stop', hb', hm⟩ | ⟨e, hb', -⟩ := s.mutableBounds_cases a length
  · obtain ⟨rfl, rfl⟩ := Prod.mk.inj (Except.ok.inj (hb.symm.trans hb'))
    obtain rfl := hm.start_eq
    exact ⟨stop, hb, hm, accept_eq_ok_iff.mp hacc⟩
  · rw [hb] at hb'
    cases hb'

/-! ## Calls without access -/

theorem unmap_eq (h : s.mutableBounds a length = .ok (start, stop)) :
    s.unmap a length = s.change Visitor.unmap start stop false := by
  unfold unmap
  rw [h, Action.lift_ok_bind]

theorem unmap_eq_throw {e : Abort} (h : s.mutableBounds a length = .error e) :
    s.unmap a length = throw (.abort e) := by
  unfold unmap
  rw [h, Action.lift_error_bind]

theorem protect_eq (h : s.mutableBounds a length = .ok (start, stop)) (ho : o.access.any = true) :
    s.protect a length o = s.change (Visitor.protect A.codec o.normalized) start stop false := by
  unfold protect
  rw [h, Action.lift_ok_bind]
  dsimp only
  rw [if_pos ho]

theorem protect_eq_unmap (s : AddressSpace A) (a : VirtualAddress) (length : Word)
    (ho : o.access.any = false) : s.protect a length o = s.unmap a length := by
  unfold protect
  cases hb : s.mutableBounds a length with
  | error e => rw [unmap_eq_throw hb, Action.lift_error_bind]
  | ok r =>
    rw [Action.lift_ok_bind]
    dsimp only
    rw [if_neg (by rw [ho]; exact Bool.false_ne_true)]

theorem map_eq_unmap (s : AddressSpace A) (a : VirtualAddress) (length : Word)
    (ho : o.access.any = false) (physical : PhysicalAddress) :
    s.map a length o physical = s.unmap a length := by
  unfold map
  cases hb : s.mutableBounds a length with
  | error e => rw [unmap_eq_throw hb, Action.lift_error_bind]
  | ok r =>
    rw [Action.lift_ok_bind]
    dsimp only
    rw [if_neg (by rw [ho]; exact Bool.false_ne_true)]

theorem map_eq (h : s.mutableBounds a length = .ok (start, stop)) (ho : o.access.any = true)
    (physical : PhysicalAddress) : s.map a length o physical =
      if physical.word.toNat + (length.toNat - 1) ≤ (BitVec.allOnes 64).toNat
      then s.change (Visitor.map A.codec start physical o.normalized) start stop false
      else throw (.abort (.physicalOverflow physical length)) := by
  unfold map require
  rw [h, Action.lift_ok_bind]
  dsimp only
  rw [if_pos ho]
  split <;> rfl

theorem map_cases (h : s.mutableBounds a length = .ok (start, stop)) (ho : o.access.any = true)
    (physical : PhysicalAddress) :
    s.map a length o physical = throw (.abort (.physicalOverflow physical length)) ∨
      s.map a length o physical =
        s.change (Visitor.map A.codec start physical o.normalized) start stop false := by
  rw [map_eq h ho]
  split
  · exact Or.inr rfl
  · exact Or.inl rfl

/-! ## Calls that ask for no array -/

theorem leaves_change {v : Visitor Bool} (hv : v.allocates = false) (s : AddressSpace A)
    (start stop : Word) (r : Bool) : (s.change v start stop r).Leaves Memory.supply :=
  leaves_range (Plan.leaves_supply hv) s.root start r

theorem leaves_unmap (s : AddressSpace A) (a : VirtualAddress) (length : Word) :
    (s.unmap a length).Leaves Memory.supply :=
  .bind (.lift _) fun r => leaves_change rfl s r.1 r.2 false

theorem leaves_protect (s : AddressSpace A) (a : VirtualAddress) (length : Word)
    (o : MapOptions) : (s.protect a length o).Leaves Memory.supply :=
  .bind (.lift _) fun r => .ite (fun _ => leaves_change rfl s r.1 r.2 false)
    fun _ => leaves_unmap s a length

end AddressSpace

/-! ## Calls that return -/

namespace Change

def range : Change → VirtualAddress × Word
  | map a length _ _ => (a, length)
  | unmap a length => (a, length)
  | protect a length _ => (a, length)

theorem run_eq_throw (ch : Change) {e : Abort}
    (h : s.mutableBounds ch.range.1 ch.range.2 = .error e) : ch.run s = throw (.abort e) := by
  cases ch with
  | map a length o physical =>
    change s.mutableBounds a length = .error e at h
    change s.map a length o physical = _
    unfold AddressSpace.map
    rw [h, Action.lift_error_bind]
  | unmap a length => exact unmap_eq_throw h
  | protect a length o =>
    change s.mutableBounds a length = .error e at h
    change s.protect a length o = _
    unfold AddressSpace.protect
    rw [h, Action.lift_error_bind]

theorem exists_walk (ch : Change) {changed : Bool} (hok : (ch.run s).outcome m = .ok changed)
    (hb : s.mutableBounds ch.range.1 ch.range.2 = .ok (start, stop)) :
    ∃ v : Visitor Bool, v.Reports A ∧ ch.run s = s.change v start stop false := by
  have hunmap {a : VirtualAddress} {length : Word}
      (hb : s.mutableBounds a length = .ok (start, stop)) :
      ∃ v : Visitor Bool, v.Reports A ∧ s.unmap a length = s.change v start stop false :=
    ⟨_, Visitor.reports_unmap A, unmap_eq hb⟩
  cases ch with
  | map a length o physical =>
    change s.mutableBounds a length = .ok (start, stop) at hb
    change ∃ v : Visitor Bool, v.Reports A ∧ s.map a length o physical = _
    by_cases ho : o.access.any = true
    · rcases map_cases hb ho physical with hthrow | hwalk
      · change (s.map a length o physical).outcome m = .ok changed at hok
        rw [hthrow] at hok
        cases hok
      · exact ⟨_, Visitor.reports_map ho start physical, hwalk⟩
    · rw [map_eq_unmap s a length (Bool.eq_false_iff.mpr ho)]
      exact hunmap hb
  | unmap a length => exact hunmap hb
  | protect a length o =>
    change ∃ v : Visitor Bool, v.Reports A ∧ s.protect a length o = _
    by_cases ho : o.access.any = true
    · exact ⟨_, Visitor.reports_protect ho, protect_eq hb ho⟩
    · rw [protect_eq_unmap s a length (Bool.eq_false_iff.mpr ho)]
      exact hunmap hb

theorem accepts (ch : Change) {changed : Bool} (hok : (ch.run s).outcome m = .ok changed) :
    s.Accepts ch.range.1 ch.range.2 := by
  cases hb : s.mutableBounds ch.range.1 ch.range.2 with
  | error e =>
    rw [ch.run_eq_throw hb] at hok
    cases hok
  | ok r =>
    refine ⟨r.1, r.2, hb, ?_⟩
    obtain ⟨v, -, hwalk⟩ := ch.exists_walk hok hb
    rw [hwalk, change] at hok
    cases hacc : accept r.1 r.2 with
    | ok u => rfl
    | error e =>
      rw [range_eq_throw hacc] at hok
      cases hok

end Change

namespace AddressSpace

/-! ## Lookups afterwards -/

/-- The call returns, is given no array, and changes what lookups of the range answer by `g`
and nothing else. -/
structure Amends (s : AddressSpace A) (a : VirtualAddress) (length : Word)
    (act : Action Memory Bool) (g : Option Mapping → Option Mapping) (m : Memory) : Prop where
  returns : ∃ changed, act.outcome m = .ok changed
  allocations : (act.final m).allocations = m.allocations
  inside : ∀ x, InPages a length x → ∃ t, (s.lookup x).outcome m = .ok t ∧
    (s.lookup x).outcome (act.final m) = .ok (g t)
  outside : ∀ x, ¬ InPages a length x →
    (s.lookup x).outcome (act.final m) = (s.lookup x).outcome m

/-- A walk that allocates nothing amends lookups as it amends leaves. -/
theorem amends_of_triple {act : Action Memory Bool} {g : Option Mapping → Option Mapping}
    (hi : Intact S m) (hs : s ∈ S) (hp : m.Placed A.codec) (hm : s.Mutable a length a.word stop)
    (ha : Accepted a.word stop) (hact : act.Leaves Memory.supply)
    (htriple : Triple A.codec (fun m' => m' = m ∧ Intact S m') act
      (fun _ m' => Pruned S s a.word stop m m' ∧ ∀ y, Inside a.word stop y →
        mapping? A y (s.leafAt m' y) = g (mapping? A y (s.leafAt m y))) fun _ _ => False) :
    s.Amends a length act g m := by
  have hsupply := hact.final_eq m
  have hp' := hp.of_supply hsupply
  obtain ⟨changed, hout, hpruned, hpages⟩ := htriple.returns hact ⟨rfl, hi⟩ hp
  refine ⟨⟨changed, hout⟩, (Prod.mk.inj hsupply).1, fun x hx => ?_, fun x hx => ?_⟩
  · have hin := hx.inside hm.stop_eq ha
    refine ⟨_, (lookup_outcome hi hs hp x).trans (answer_of_inside ha hin m), ?_⟩
    rw [lookup_outcome hpruned.intact hs hp', answer_of_inside ha hin, hpages _ hin]
  · rw [lookup_outcome hpruned.intact hs hp', lookup_outcome hi hs hp,
      answer_of_framed hm.stop_eq ha hpruned.framed hx]

theorem unmap_amends (hi : Intact S m) (hs : s ∈ S) (hun : Unshared S s)
    (hp : m.Placed A.codec) (hacc : s.Accepts a length) :
    s.Amends a length (s.unmap a length) (fun _ => none) m := by
  obtain ⟨stop, hb, hm, ha⟩ := hacc.exists_stop
  have he := (hi.split s hs).editable hun ha hm.stop_le
  apply amends_of_triple hi hs hp hm ha (leaves_unmap s a length)
  rw [unmap_eq hb]
  apply (clear_walk_triple hs he ha m).post
  rintro r m' ⟨hpruned, hclear⟩
  refine ⟨hpruned, fun y hy => ?_⟩
  rw [hclear y (ha.isPage hy), if_pos ⟨hy.le, hy.lt_pageEnd⟩, mapping?,
    if_neg (by rw [A.lawful.isValid_zero]; exact Bool.false_ne_true)]

theorem Regranted.mapping?_eq (h : Regranted A.codec o w₀ w) (y : Word) :
    mapping? A y w = (mapping? A y w₀).map fun t => { t with opts := o } := by
  unfold mapping?
  rw [h.isValid_eq]
  by_cases hv : A.codec.isValid w₀ = true
  · rw [if_pos hv, if_pos hv, h.address_eq hv, h.options_eq hv]
    rfl
  · rw [if_neg hv, if_neg hv]
    rfl

theorem protect_amends (hi : Intact S m) (hs : s ∈ S) (hun : Unshared S s)
    (hp : m.Placed A.codec) (hacc : s.Accepts a length) (ho : o.access.any = true) :
    s.Amends a length (s.protect a length o)
      (Option.map fun t => { t with opts := o.normalized }) m := by
  obtain ⟨stop, hb, hm, ha⟩ := hacc.exists_stop
  have he := (hi.split s hs).editable hun ha hm.stop_le
  apply amends_of_triple hi hs hp hm ha (leaves_protect s a length o)
  rw [protect_eq hb ho]
  apply (regrant_triple hs he ha ho m).post
  rintro r m' ⟨hpruned, hregrant⟩
  refine ⟨hpruned, fun y hy => ?_⟩
  have hpage := hregrant y (ha.isPage hy)
  rw [if_pos ⟨hy.le, hy.lt_pageEnd⟩] at hpage
  exact hpage.mapping?_eq y

end AddressSpace

namespace Realm

variable {R : Realm A}

/-- On an accepted range, unmapping leaves nothing mapped, changing permissions changes only
the options of what is mapped, and either is the same call as the other or as mapping
when no access is given. -/
theorem Reachable.unmap_and_protect (h : Reachable R) (hp : R.memory.Placed A.codec)
    (hs : s ∈ R.spaces) (hun : Unshared R.spaces s) (hacc : s.Accepts a length) :
    s.Amends a length (s.unmap a length) (fun _ => none) R.memory ∧
    (∀ o : MapOptions, o.access.any = true → s.Amends a length (s.protect a length o)
      (Option.map fun t => { t with opts := o.normalized }) R.memory) ∧
    ∀ o : MapOptions, o.access.any = false → s.protect a length o = s.unmap a length ∧
      ∀ physical, s.map a length o physical = s.unmap a length := by
  have hi := (h.sound hp).intact
  exact ⟨unmap_amends hi hs hun hp hacc, fun o ho => protect_amends hi hs hun hp hacc ho,
    fun o ho => ⟨protect_eq_unmap s a length ho, map_eq_unmap s a length ho⟩⟩

/-- Memory for four arrays, all of which a space with one page has taken. -/
def crowded : Realm .riscv64 :=
  ⟨((firstSpace .riscv64 0x1000000).map ⟨0x5000⟩ 0x1000 (.forUser .readWrite) ⟨0x80000000⟩).final
    ((AddressSpace.create .riscv64 ⟨1⟩).final (.startingAt 0x1000000 (some 4))),
    [firstSpace .riscv64 0x1000000]⟩

theorem reachable_crowded : Reachable crowded ∧
    (Memory.startingAt 0x1000000 (some 4)).Before crowded.memory := by
  have hcreate : (AddressSpace.create .riscv64 ⟨1⟩).outcome (.startingAt 0x1000000 (some 4)) =
      .ok (firstSpace .riscv64 0x1000000) := by decide +kernel
  have hstart : Reachable (A := .riscv64) ⟨.startingAt 0x1000000 (some 4), []⟩ :=
    .start ⟨rfl, rfl, rfl, rfl⟩
  have hfirst := Step.create (R := ⟨.startingAt 0x1000000 (some 4), []⟩) nofun hcreate
  have hsecond := Step.change (R := ⟨(AddressSpace.create .riscv64 ⟨1⟩).final
    (.startingAt 0x1000000 (some 4)), [firstSpace .riscv64 0x1000000]⟩) List.mem_cons_self
    (unshared_single .riscv64 0x1000000)
    (.map ⟨0x5000⟩ 0x1000 (.forUser .readWrite) ⟨0x80000000⟩)
  exact ⟨(hstart.step hfirst).step hsecond, (hfirst.before hstart.wellSplit).trans
    (hsecond.before (hstart.step hfirst).wellSplit)⟩

/-- No array is left, and the page is unmapped, or loses its write permission. -/
theorem unmap_and_protect_crowded : crowded.memory.limitReached = true ∧
    ((firstSpace .riscv64 0x1000000).lookup ⟨0x5abc⟩).outcome
      (((firstSpace .riscv64 0x1000000).unmap ⟨0x5000⟩ 0x1000).final crowded.memory) =
        .ok none ∧
    ((firstSpace .riscv64 0x1000000).lookup ⟨0x5abc⟩).outcome
      (((firstSpace .riscv64 0x1000000).protect ⟨0x5000⟩ 0x1000 (.forUser .readOnly)).final
        crowded.memory) =
        .ok (some ⟨⟨0x5000⟩, ⟨0x80000000⟩, pageSize, .forUser .readOnly⟩) := by
  obtain ⟨hreach, hbefore⟩ := reachable_crowded
  have hacc : (firstSpace .riscv64 0x1000000).Accepts ⟨0x5000⟩ 0x1000 :=
    ⟨0x5000, 0x6000, by decide, by decide⟩
  obtain ⟨hunmap, hprotect, -⟩ := hreach.unmap_and_protect
    (placed_startingAt hbefore (by decide) (by decide +kernel)) List.mem_cons_self
    (unshared_single .riscv64 0x1000000) hacc
  have hin : InPages ⟨0x5000⟩ 0x1000 ⟨0x5abc⟩ := ⟨by decide, by decide⟩
  have hold : ((firstSpace .riscv64 0x1000000).lookup ⟨0x5abc⟩).outcome crowded.memory =
      .ok (some ⟨⟨0x5000⟩, ⟨0x80000000⟩, pageSize, .forUser .readWrite⟩) := by decide +kernel
  refine ⟨by decide +kernel, ?_, ?_⟩
  · obtain ⟨t, -, ht⟩ := hunmap.inside _ hin
    exact ht
  · obtain ⟨t, ht, ht'⟩ := (hprotect (.forUser .readOnly) (by decide)).inside _ hin
    obtain rfl := Except.ok.inj (hold.symm.trans ht)
    exact ht'

end Realm

end Sandbox
