import Sandbox.Proofs.Tag.Recency

/-! # Assignments that are cut short

When the flush of a tag does not return, the assignment ends halfway: the tag was taken from its
owner, but nobody else has got it. The record of the tag is still marked dirty, and so the tag
stays unbound until it has been flushed after all.
-/

namespace Sandbox

namespace Tagging

variable {T : List Asid} {q : Line} {x y z : Tagging} {i : Nat} {r : TagRecord} {o v : OwnerId}
  {t : Asid} {n : Nat} {d : Deed} {l : List Deed} {a : Assignment}

theorem Sound.lookup_congr (hx : Sound T x) (hy : Sound T y)
    (h : y.owners.tag? o = x.owners.tag? o) :
    y.pool.lookup y.owners o = x.pool.lookup x.owners o := by
  ext t
  rw [hx.lookup_eq_some_iff, hy.lookup_eq_some_iff, h]

theorem Sound.lookup_of_zero (hx : Sound T x) (h : x.owners.tag? o = some 0) :
    x.pool.lookup x.owners o = none := by
  rw [Option.eq_none_iff_forall_ne_some]
  intro t ht
  obtain ⟨ht, ht0⟩ := hx.lookup_eq_some_iff.mp ht
  exact ht0 (Option.some.inj (ht.symm.trans h))

/-! ## A tag that waits for a flush -/

/-- The tag has no owner, but something may be cached under it from its epoch `n`. -/
def Awaits (t : Asid) (n : Nat) (x : Tagging) : Prop :=
  ∃ (i : Nat) (r : TagRecord),
    x.pool.records[i]? = some r ∧ r.tag = t ∧ r.owner = none ∧ r.dirty = true ∧ r.epoch = n

namespace Awaits

theorem of_set (h : Awaits t n x) {r' : TagRecord} (hi : x.pool.records[i]? = some r)
    (hy : y.pool.records = x.pool.records.set i r') (hr : r.tag = t → r' = r) : Awaits t n y := by
  obtain ⟨j, s, hj, ht, howner, hdirty, hepoch⟩ := h
  refine ⟨j, s, ?_, ht, howner, hdirty, hepoch⟩
  rw [hy, getElem?_set_of_some hi]
  split
  · next hij =>
    subst hij
    obtain rfl := Option.some.inj (hi.symm.trans hj)
    rw [hr ht]
  · exact hj

theorem vacated (h : Awaits t n x) (hx : Sound T x) (hi : x.pool.records[i]? = some r)
    (hy : y.pool.records = x.pool.records.set i { r with owner := none }) : Awaits t n y := by
  refine h.of_set hi hy fun ht => ?_
  obtain ⟨j, s, hj, hs, howner, -⟩ := h
  obtain rfl := hx.agreement.record_eq hi hj (ht.trans hs.symm)
  rw [← howner]

/-- A tag that waits for a flush goes on to wait until it is bound. -/
theorem step (h : Awaits t n x) (hx : Sound T x) (hstep : Step x d y) (hd : ¬ d.Binds t) :
    Awaits t n y := by
  cases hstep with
  | create => exact h
  | @assign o a ho ha =>
    have hassign := hx.assigns ho
    rw [ha] at hassign
    generalize (assign o).final x = y at hassign
    cases hassign with
    | held hi => exact h.of_set hi rfl fun ht => absurd ht hd
    | given hi => exact h.of_set hi rfl fun ht => absurd ht hd
  | @abort o e ho he =>
    have hassign := hx.assigns ho
    rw [he] at hassign
    generalize (assign o).final x = y at hassign
    cases hassign with
    | stuck hi => exact h.vacated hx hi rfl
  | @release o t =>
    rcases release_final x o with ⟨i, r, -, hi, heq⟩ | ⟨-, heq⟩
    · rw [heq]
      exact h.vacated hx hi rfl
    · rwa [heq]
  | lookup => exact h
  | drop => exact h
  | rig => exact h

theorem flushed (h : Awaits t n x) (hx : Sound T x) (hstep : Step x (.assigned o a) y)
    (ht : a.tag = t) :
    a.flushed = true ∧ a.epoch = n + 1 ∧ t ∉ x.trace.failing .everywhere ∧
      y.trace.events = x.trace.events.push (.flush .everywhere t []) := by
  obtain ⟨j, s, hj, rfl, howner, hdirty, rfl⟩ := h
  cases hstep with
  | assign ho ha =>
    have hassign := hx.assigns ho
    rw [ha] at hassign
    generalize (assign o).final x = y at hassign
    cases hassign with
    | held hi hr =>
      obtain rfl := hx.agreement.record_eq hi hj ht
      rw [TagRecord.liveOwner_eq_some_iff, howner] at hr
      cases hr.1
    | given hi h0 hr =>
      obtain rfl := hx.agreement.record_eq hi hj ht
      refine ⟨hdirty, by simp [hdirty], hr hdirty, ?_⟩
      rw [rebound, if_pos hdirty, hx.cleaning_eq hi]
      rfl

end Awaits

/-! ## Continuations -/

inductive Steps (x : Tagging) : List Deed → Tagging → Prop
  | refl : Steps x [] x
  | step {l : List Deed} {y : Tagging} {d : Deed} {z : Tagging} (h : Steps x l y)
      (hstep : Step y d z) : Steps x (d :: l) z

theorem Steps.sound (h : Steps x l y) (hx : Sound T x) : Sound T y := by
  induction h with
  | refl => exact hx
  | step _ hstep ih => exact hstep.sound ih

theorem Steps.awaits (h : Steps x l y) (hx : Sound T x) (ha : Awaits t n x)
    (hl : ∀ d ∈ l, ¬ d.Binds t) : Awaits t n y := by
  induction h with
  | refl => exact ha
  | step h hstep ih =>
    rw [List.forall_mem_cons] at hl
    exact (ih hl.2).step (h.sound hx) hstep hl.1

/-! ## What an interruption leaves behind -/

/-- An assignment to `o` that the flush of `t` has cut short leads from `x` to `y`. The owners that
hold a tag stand in the line `q` before. -/
structure CutShort (q : Line) (x : Tagging) (o : OwnerId) (t : Asid) (y : Tagging) : Prop where
  outcome : (assign o).outcome x = .error (.abort (.flushFailed t))
  unserved : y.owners.tag? o = some 0 ∧ y.pool.lookup y.owners o = none
  unbound : ∀ v, ¬ y.pool.Lends y.owners t v ∧ y.owners.tag? v ≠ some t
  victim : ∀ v, x.pool.Lends x.owners t v →
    y.owners.tag? v = some 0 ∧ y.pool.lookup y.owners v = none
  others : ∀ v, ¬ x.pool.Lends x.owners t v →
    y.owners.tag? v = x.owners.tag? v ∧ y.pool.lookup y.owners v = x.pool.lookup x.owners v
  records : y.pool.records =
    x.pool.records.map fun r => if r.tag = t then { r with owner := none } else r
  epoch : ∀ t, y.pool.epoch t = x.pool.epoch t
  /-- Everybody else keeps its place. -/
  line : Lined q x ∧ Lined (q.without t) y
  /-- Whatever happens next, the tag is flushed before it is bound again. -/
  later : ∀ {l : List Deed} {z z' : Tagging} {o' : OwnerId} {a : Assignment}, Steps y l z →
    (∀ d ∈ l, ¬ d.Binds t) → Step z (.assigned o' a) z' → a.tag = t →
      a.flushed = true ∧ some a.epoch = (x.pool.epoch t).map (· + 1) ∧
        t ∉ z.trace.failing .everywhere ∧
        z'.trace.events = z.trace.events.push (.flush .everywhere t [])

variable {p : TagPool} {start size limit : Asid}

theorem Sound.records_stuck (hx : Sound T x) (hi : x.pool.records[i]? = some r) :
    (x.stuck i r).pool.records =
      x.pool.records.map fun s => if s.tag = r.tag then { s with owner := none } else s := by
  refine (hx.agreement.set_eq_map hi).trans (List.map_congr_left fun s hs => ?_)
  obtain ⟨j, hj⟩ := List.getElem?_of_mem hs
  split
  · next ht => rw [hx.agreement.record_eq hi hj ht.symm]
  · rfl

theorem Sound.epoch_stuck (hx : Sound T x) (hi : x.pool.records[i]? = some r) (t : Asid) :
    (x.stuck i r).pool.epoch t = x.pool.epoch t := by
  have hsame (s : TagRecord) : (if s.tag = r.tag then { s with owner := none } else s).tag = s.tag ∧
      (if s.tag = r.tag then { s with owner := none } else s).epoch = s.epoch := by
    split <;> exact ⟨rfl, rfl⟩
  simp [TagPool.epoch, hx.records_stuck hi, List.find?_map, Function.comp_def, hsame]

theorem tag?_stuck (v : OwnerId) : (x.stuck i r).owners.tag? v =
    if r.owner = some v then (x.owners.tag? v).map fun _ => 0 else x.owners.tag? v :=
  Owners.tag?_vacate

theorem Sound.unbound_stuck (hx : Sound T x) (hi : x.pool.records[i]? = some r) (v : OwnerId) :
    ¬ (x.stuck i r).pool.Lends (x.stuck i r).owners r.tag v ∧
      (x.stuck i r).owners.tag? v ≠ some r.tag := by
  have hrecords : (x.stuck i r).pool.records = x.pool.records.set i { r with owner := none } := rfl
  have hnone : ¬ (x.stuck i r).pool.Lends (x.stuck i r).owners r.tag v := by
    rw [TagPool.lends_set hx.agreement hi hrecords rfl, if_pos rfl]
    simp [TagRecord.liveOwner]
  refine ⟨hnone, fun ht => hnone ?_⟩
  have hy := hx.stuck hi
  rw [← TagPool.lookup_eq_some_iff hy.agreement]
  exact hy.lookup_eq_some_iff.mpr ⟨ht, hx.agreement.tag_ne_zero hi⟩

theorem Sound.victim_stuck (hx : Sound T x) (hi : x.pool.records[i]? = some r)
    (hv : x.pool.Lends x.owners r.tag v) : (x.stuck i r).owners.tag? v = some 0 := by
  obtain ⟨s, hs, ht, hv⟩ := hv
  obtain ⟨j, hj⟩ := List.getElem?_of_mem hs
  obtain rfl := hx.agreement.record_eq hi hj ht.symm
  obtain ⟨howner, hlive⟩ := TagRecord.liveOwner_eq_some_iff.mp hv
  obtain ⟨t, ht⟩ := Owners.isLive_iff.mp hlive
  rw [tag?_stuck, if_pos howner, ht, Option.map_some]

/-- A record may still name an owner that is gone, and has no slot to lose. -/
theorem tag?_stuck_of_not_lends (hi : x.pool.records[i]? = some r)
    (hv : ¬ x.pool.Lends x.owners r.tag v) : (x.stuck i r).owners.tag? v = x.owners.tag? v := by
  rw [tag?_stuck]
  split
  · next howner =>
    have hdead : x.owners.isLive v = false := by
      by_contra hlive
      refine hv ⟨r, List.mem_of_getElem? hi, rfl, TagRecord.liveOwner_eq_some_iff.mpr ?_⟩
      exact ⟨howner, Bool.eq_true_of_not_eq_false hlive⟩
    rw [Owners.not_isLive_iff.mp hdead, Option.map_none]
  · rfl

theorem Picks.cutShort {e : Stop} (hy : Picks x o (.error e) y) (hx : Sound T x) (hq : Lined q x)
    (hT : T.Pairwise fun t t' => t.toNat < t'.toNat) (ho : x.owners.isLive o = true)
    (he : (assign o).outcome x = .error e) : ∃ t, CutShort q x o t y := by
  have hsound := (hy.assigns hx ho).sound hx
  obtain ⟨t, rfl, -, -, -, hline⟩ := hy.lined_stuck hq hx hT
  cases hy with
  | @stuck r hheld hi hd hr =>
    have hnew : (x.stuck (x.pool.choice x.owners) r).owners.tag? o = some 0 := by
      rw [tag?_stuck, hx.tag?_of_unheld ho hheld]
      split <;> rfl
    have hawaits : Awaits r.tag r.epoch (x.stuck (x.pool.choice x.owners) r) :=
      ⟨_, { r with owner := none }, (getElem?_set_of_some hi).trans (if_pos rfl), rfl, rfl, hd, rfl⟩
    refine ⟨r.tag, ?_⟩
    constructor
    case outcome => exact he
    case unserved => exact ⟨hnew, hsound.lookup_of_zero hnew⟩
    case unbound => exact hx.unbound_stuck hi
    case victim =>
      intro v hv
      have hzero := hx.victim_stuck hi hv
      exact ⟨hzero, hsound.lookup_of_zero hzero⟩
    case others =>
      intro v hv
      have hsame := tag?_stuck_of_not_lends hi hv
      exact ⟨hsame, hx.lookup_congr hsound hsame⟩
    case records => exact hx.records_stuck hi
    case epoch => exact hx.epoch_stuck hi
    case line => exact ⟨hq, hline⟩
    case later =>
      intro l z z' o' a hsteps hl hstep ht
      rw [TagPool.epoch_eq hx.agreement hi, Option.map_some, Option.some.injEq]
      exact (hsteps.awaits hsound hawaits hl).flushed (hsteps.sound hsound) hstep ht

/-- If the flush of a tag cuts an assignment short, its owner loses the tag and nobody gets it, and
whoever gets it later gets it flushed. Nothing else has changed. -/
theorem Run.cut_short (hp : TagPool.create start size limit = .ok p) (h : Run p l x)
    (hstep : Step x (.aborted o) y) :
    ∃ t, CutShort (Deed.lineUp (TagPool.tags start size) l) x o t y := by
  obtain ⟨-, -, hle, -⟩ := TagPool.create_eq_ok hp
  have hx := h.sound hp
  cases hstep with
  | @abort o e ho he =>
    have hpick := picks hx.records_ne_nil o
    rw [he] at hpick
    exact hpick.cutShort hx (h.lined hp) (TagPool.tags_sorted hle) ho he

/-- Owner 2 was to make room for owner 3, but the flush fails. Once flushes work again, owner 2 gets
its tag back, and with it the flush that was missing. -/
theorem cut_short_crowded : ∃ y z,
    Step { crowded with trace.failing := fun _ => [3] } (.aborted ⟨3⟩) y ∧
    y.owners.tag? ⟨3⟩ = some 0 ∧ y.pool.epoch 3 = some 0 ∧
    Step { y with trace.failing := fun _ => [] } (.assigned ⟨2⟩ ⟨3, 1, false, true⟩) z ∧
    z.trace.events = y.trace.events.push (.flush .everywhere 3 []) := by
  have hpool : TagPool.create 2 2 100 = .ok ⟨[{ tag := 2 }, { tag := 3 }], 0⟩ := by decide
  have he : (assign ⟨3⟩).outcome { crowded with trace.failing := fun _ => [3] } =
      .error (.abort (.flushFailed 3)) := by decide +kernel
  have hstep := Step.abort (by decide +kernel) he
  obtain ⟨t, ht⟩ := (run_crowded.step (.rig fun _ => [3])).cut_short hpool hstep
  obtain rfl : (3 : Asid) = t := by simpa using he.symm.trans ht.outcome
  have hagain : Step { (assign ⟨3⟩).final { crowded with trace.failing := fun _ => [3] } with
      trace.failing := fun _ => [] } (.assigned ⟨2⟩ ⟨3, 1, false, true⟩) _ :=
    .assign (by decide +kernel) (by decide +kernel)
  have hlater := ht.later (Steps.refl.step (.rig fun _ => [])) (by simp [Deed.Binds]) hagain rfl
  exact ⟨_, _, hstep, ht.unserved.1, (ht.epoch 3).trans (by decide +kernel), hagain, hlater.2.2.2⟩

end Tagging

end Sandbox
