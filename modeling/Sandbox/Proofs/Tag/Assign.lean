import Mathlib.Data.List.MinMax
import Sandbox.Proofs.Memory.Triple
import Sandbox.Proofs.Tag.Agreement

/-! # Running an assignment

An assignment finds the record of its owner, or chooses one that has no live owner, or else
the one that was assigned longest ago. The state it leaves behind is given in closed form
for each of these ways, and for a flush that fails.
-/

namespace Sandbox

theorem modify_of_getElem? {α : Type} {l : List α} {i : Nat} {x : α} {f : α → α}
    (h : l[i]? = some x) : l.modify i f = l.set i (f x) := by
  rw [List.modify_eq_set_getElem?, h]
  rfl

namespace TagPool

variable {p : TagPool} {w : Owners} {o : OwnerId} {i : Nat}

theorem held?_eq_some (h : p.held? w o = some i) :
    ∃ r, p.records[i]? = some r ∧ r.liveOwner w = some o := by
  obtain ⟨hlt, hr, -⟩ := List.findIdx?_eq_some_iff_getElem.mp h
  exact ⟨p.records[i], List.getElem?_eq_getElem hlt, beq_iff_eq.mp hr⟩

theorem held?_eq_none_iff :
    p.held? w o = none ↔ ∀ r ∈ p.records, r.liveOwner w ≠ some o := by
  simp only [held?, List.findIdx?_eq_none_iff, beq_eq_false_iff_ne]

theorem free?_eq_some (h : p.free? w = some i) :
    ∃ r, p.records[i]? = some r ∧ r.liveOwner w = none := by
  obtain ⟨hlt, hr, -⟩ := List.findIdx?_eq_some_iff_getElem.mp h
  exact ⟨p.records[i], List.getElem?_eq_getElem hlt, beq_iff_eq.mp hr⟩

theorem free?_eq_none_iff : p.free? w = none ↔ ∀ r ∈ p.records, r.liveOwner w ≠ none := by
  simp only [free?, List.findIdx?_eq_none_iff, beq_eq_false_iff_ne]

theorem oldest_lt (h : p.records ≠ []) : p.oldest < p.records.length := by
  obtain ⟨r, hr⟩ := Option.ne_none_iff_exists'.mp
    (mt List.argmin_eq_none.mp h : List.argmin TagRecord.lastAssigned p.records ≠ none)
  refine List.findIdx_lt_length_of_exists ⟨r, List.argmin_mem hr, ?_⟩
  refine List.all_eq_true.mpr fun r' hr' => decide_eq_true ?_
  exact Nat.le_of_not_lt (List.not_lt_of_mem_argmin hr' hr)

/-- Position of the record that an owner without a tag gets. -/
def choice (p : TagPool) (w : Owners) : Nat :=
  (p.free? w).getD p.oldest

theorem exists_choice (h : p.records ≠ []) : ∃ r, p.records[p.choice w]? = some r := by
  unfold choice
  cases hf : p.free? w with
  | some i =>
    obtain ⟨r, hr, -⟩ := free?_eq_some hf
    exact ⟨r, hr⟩
  | none => exact ⟨_, List.getElem?_eq_getElem (oldest_lt h)⟩

end TagPool

namespace Tagging

variable {x : Tagging} {i : Nat} {r : TagRecord} {o : OwnerId} {t : Asid} {scope : FlushScope}
  {L : Array LogRecord}

/-! ## The states that an assignment passes through -/

def noted (x : Tagging) (e : Event) : Tagging :=
  { x with trace.events := x.trace.events.push e }

def vacated (x : Tagging) (i : Nat) (r : TagRecord) : Tagging :=
  { x with
    pool.records := x.pool.records.set i { r with owner := none }
    owners := x.owners.vacate r.owner }

def ticked (x : Tagging) : Tagging :=
  { x with pool.clock := x.pool.clock + 1 }

def renewed (x : Tagging) (i : Nat) (r : TagRecord) (o : OwnerId) : Tagging :=
  { x with
    pool := ⟨x.pool.records.set i { r with lastAssigned := x.pool.clock + 1 }, x.pool.clock + 1⟩
    owners := x.owners.bind o r.tag }

/-- The flush of the tag of a record, once the record is vacated. -/
def cleaning (x : Tagging) (r : TagRecord) : Event :=
  .flush .everywhere r.tag ((x.owners.vacate r.owner).holders r.tag)

def rebound (x : Tagging) (i : Nat) (r : TagRecord) (o : OwnerId) : Tagging where
  pool := ⟨x.pool.records.set i ⟨r.tag, some o, r.epoch + r.dirty.toNat, true, x.pool.clock + 1⟩,
    x.pool.clock + 1⟩
  owners := (x.owners.vacate r.owner).bind o r.tag
  trace := if r.dirty then (x.noted (x.cleaning r)).trace else x.trace

/-- The flush of the chosen record's tag did not return. -/
def stuck (x : Tagging) (i : Nat) (r : TagRecord) : Tagging :=
  (x.ticked.vacated i r).noted (x.cleaning r)

/-! ## Runs of the parts -/

theorem flush_run (h : t ∉ x.trace.failing scope) :
    flush scope t ⟨x, L⟩ = .ok () ⟨x.noted (.flush scope t (x.owners.holders t)), L⟩ := by
  unfold flush
  refine (Action.bind_run rfl).trans ((Action.bind_run rfl).trans ?_)
  rw [if_neg h]
  rfl

theorem flush_run_failing (h : t ∈ x.trace.failing scope) :
    flush scope t ⟨x, L⟩ = .error (.abort (.flushFailed t))
      ⟨x.noted (.flush scope t (x.owners.holders t)), L⟩ := by
  unfold flush
  refine (Action.bind_run rfl).trans ((Action.bind_run rfl).trans ?_)
  rw [if_pos h]
  rfl

theorem record_run (hi : x.pool.records[i]? = some r) : record i ⟨x, L⟩ = .ok r ⟨x, L⟩ := by
  unfold record
  refine (Action.bind_run rfl).trans ?_
  rw [List.getD_eq_getElem?_getD, hi]
  rfl

theorem modifyRecord_run {f : TagRecord → TagRecord} (hi : x.pool.records[i]? = some r) :
    modifyRecord i f ⟨x, L⟩ =
      .ok () ⟨{ x with pool.records := x.pool.records.set i (f r) }, L⟩ := by
  rw [← modify_of_getElem? hi]
  rfl

theorem unbind_run (hi : x.pool.records[i]? = some r) :
    unbind i ⟨x, L⟩ = .ok () ⟨x.vacated i r, L⟩ := by
  unfold unbind
  refine (Action.bind_run (record_run hi)).trans ?_
  cases ho : r.owner with
  | none =>
    refine (Action.bind_run rfl).trans ((modifyRecord_run hi).trans ?_)
    rw [vacated, ho]
    rfl
  | some o =>
    refine (Action.bind_run rfl).trans ?_
    exact (modifyRecord_run (x := { x with owners := x.owners.bind o 0 }) hi).trans (by
      rw [vacated, ho]
      rfl)

theorem evict_run (hi : x.pool.records[x.pool.oldest]? = some r) :
    evict ⟨x, L⟩ = .ok x.pool.oldest
      ⟨x.vacated x.pool.oldest r, L.push (.tagEvicted r.tag (r.liveOwner x.owners))⟩ := by
  unfold evict
  refine (Action.bind_run rfl).trans ((Action.bind_run (record_run hi)).trans ?_)
  exact (Action.bind_run rfl).trans ((Action.bind_run (unbind_run hi)).trans rfl)

theorem clean_run (hi : x.pool.records[i]? = some r)
    (h : r.dirty = true → r.tag ∉ x.trace.failing .everywhere) :
    ∃ L', clean i ⟨x, L⟩ = .ok r.dirty ⟨{ x with
      pool.records := x.pool.records.set i { r with epoch := r.epoch + r.dirty.toNat }
      trace := if r.dirty then
        (x.noted (.flush .everywhere r.tag (x.owners.holders r.tag))).trace else x.trace }, L'⟩ := by
  unfold clean
  by_cases hd : r.dirty = true
  · have hone : r.dirty.toNat = 1 := by rw [hd, Bool.toNat_true]
    refine ⟨L.push (.tagFlushed r.tag (r.epoch + 1)), (Action.bind_run (record_run hi)).trans ?_⟩
    rw [hone, if_pos hd, if_pos hd]
    refine (Action.bind_run (flush_run (h hd))).trans ?_
    exact (Action.bind_run (modifyRecord_run (x := x.noted _) hi)).trans rfl
  · have hzero : r.dirty.toNat = 0 := by
      rw [Bool.eq_false_of_not_eq_true hd, Bool.toNat_false]
    have hset : x.pool.records.set i { r with epoch := r.epoch + 0 } = x.pool.records := by
      obtain ⟨hlt, rfl⟩ := List.getElem?_eq_some_iff.mp hi
      exact List.set_getElem_self hlt
    refine ⟨L, (Action.bind_run (record_run hi)).trans ?_⟩
    rw [hzero, hset, if_neg hd, if_neg hd]
    rfl

theorem clean_run_failing (hi : x.pool.records[i]? = some r) (hd : r.dirty = true)
    (h : r.tag ∈ x.trace.failing .everywhere) :
    clean i ⟨x, L⟩ = .error (.abort (.flushFailed r.tag))
      ⟨x.noted (.flush .everywhere r.tag (x.owners.holders r.tag)), L⟩ := by
  unfold clean
  refine (Action.bind_run (record_run hi)).trans ?_
  rw [if_pos hd]
  exact Action.bind_run_error (flush_run_failing h)

def give (o : OwnerId) (now : Nat) (i : Nat) : Action Tagging Assignment := do
  let flushed ← clean i
  modifyRecord i fun r => { r with owner := some o, dirty := true, lastAssigned := now }
  let r ← record i
  bindSlot o r.tag
  return { tag := r.tag, epoch := r.epoch, reused := false, flushed := flushed }

theorem give_run {n : Nat} (hi : x.pool.records[i]? = some r)
    (hr : r.dirty = true → r.tag ∉ x.trace.failing .everywhere) :
    ∃ L', give o n i ⟨x, L⟩ = .ok ⟨r.tag, r.epoch + r.dirty.toNat, false, r.dirty⟩ ⟨{
      pool := { x.pool with
        records := x.pool.records.set i ⟨r.tag, some o, r.epoch + r.dirty.toNat, true, n⟩ }
      owners := x.owners.bind o r.tag
      trace := if r.dirty then
        (x.noted (.flush .everywhere r.tag (x.owners.holders r.tag))).trace else x.trace }, L'⟩ := by
  obtain ⟨L', hclean⟩ := clean_run (L := L) hi hr
  have hset {r₁ r₂ : TagRecord} : ((x.pool.records.set i r₁).set i r₂)[i]? = some r₂ := by
    rw [List.set_set, getElem?_set_of_some hi, if_pos rfl]
  have hcleaned {r' : TagRecord} : (x.pool.records.set i r')[i]? = some r' := by
    rw [getElem?_set_of_some hi, if_pos rfl]
  unfold give
  refine ⟨L', (Action.bind_run hclean).trans ?_⟩
  refine (Action.bind_run (modifyRecord_run hcleaned)).trans ?_
  refine (Action.bind_run (record_run hset)).trans ((Action.bind_run rfl).trans ?_)
  simp only [List.set_set]
  rfl

/-- An owner without a tag gets a record that has no owner any more. -/
theorem assign_run_choice (h : x.pool.held? x.owners o = none)
    (hi : x.pool.records[x.pool.choice x.owners]? = some r) :
    ∃ L', assign o ⟨x, L⟩ = give o (x.pool.clock + 1) (x.pool.choice x.owners)
      ⟨x.ticked.vacated (x.pool.choice x.owners) r, L'⟩ := by
  have hstart : assign o ⟨x, L⟩ = ((x.pool.free? x.owners).elim evict pure >>= fun i =>
      modifyRecord i (fun r => { r with owner := none }) >>=
        fun _ => give o (x.pool.clock + 1) i) ⟨x.ticked, L⟩ := by
    unfold assign
    refine (Action.bind_run rfl).trans ((Action.bind_run rfl).trans ?_)
    dsimp only
    rw [show TagPool.held? { x.pool with clock := x.pool.clock + 1 } x.owners o = none from h,
      show TagPool.free? { x.pool with clock := x.pool.clock + 1 } x.owners = x.pool.free? x.owners
        from rfl]
    cases x.pool.free? x.owners <;> rfl
  rw [hstart]
  unfold TagPool.choice at hi ⊢
  cases hf : x.pool.free? x.owners with
  | some i =>
    rw [hf, Option.getD_some] at hi
    obtain ⟨r', hi', hfree⟩ := TagPool.free?_eq_some hf
    obtain rfl := Option.some.inj (hi.symm.trans hi')
    refine ⟨L, (Action.bind_run rfl).trans
      ((Action.bind_run (modifyRecord_run (x := x.ticked) hi)).trans ?_)⟩
    have hvac : x.ticked.owners.vacate r.owner = x.ticked.owners :=
      TagRecord.vacate_of_liveOwner hfree
    rw [vacated, hvac]
    rfl
  | none =>
    rw [hf, Option.getD_none] at hi
    have hi' : (x.ticked.vacated x.pool.oldest r).pool.records[x.pool.oldest]? =
        some { r with owner := none } :=
      (getElem?_set_of_some hi).trans (if_pos rfl)
    refine ⟨L.push (.tagEvicted r.tag (r.liveOwner x.owners)), ?_⟩
    refine (Action.bind_run (evict_run (x := x.ticked) hi)).trans
      ((Action.bind_run (modifyRecord_run hi')).trans ?_)
    rw [vacated, List.set_set]
    rfl

/-! ## Runs of the calls -/

theorem assign_run_held (h : x.pool.held? x.owners o = some i)
    (hi : x.pool.records[i]? = some r) :
    assign o ⟨x, L⟩ = .ok ⟨r.tag, r.epoch, true, false⟩ ⟨x.renewed i r o, L⟩ := by
  have hset : (x.pool.records.set i { r with lastAssigned := x.pool.clock + 1 })[i]? =
      some { r with lastAssigned := x.pool.clock + 1 } :=
    (getElem?_set_of_some hi).trans (if_pos rfl)
  unfold assign
  refine (Action.bind_run rfl).trans ((Action.bind_run rfl).trans ?_)
  dsimp only
  rw [show TagPool.held? { x.pool with clock := x.pool.clock + 1 } x.owners o = some i from h]
  refine (Action.bind_run (modifyRecord_run (x := x.ticked) hi)).trans ?_
  refine (Action.bind_run (record_run hset)).trans ?_
  exact (Action.bind_run rfl).trans rfl

theorem assign_run_unheld (h : x.pool.held? x.owners o = none)
    (hi : x.pool.records[x.pool.choice x.owners]? = some r)
    (hr : r.dirty = true → r.tag ∉ x.trace.failing .everywhere) :
    ∃ L', assign o ⟨x, L⟩ = .ok ⟨r.tag, r.epoch + r.dirty.toNat, false, r.dirty⟩
      ⟨x.rebound (x.pool.choice x.owners) r o, L'⟩ := by
  obtain ⟨L₁, h₁⟩ := assign_run_choice (L := L) h hi
  have hvac : (x.ticked.vacated (x.pool.choice x.owners) r).pool.records[x.pool.choice x.owners]? =
      some { r with owner := none } := (getElem?_set_of_some hi).trans (if_pos rfl)
  obtain ⟨L₂, h₂⟩ := give_run (o := o) (n := x.pool.clock + 1) (L := L₁) hvac hr
  refine ⟨L₂, h₁.trans (h₂.trans ?_)⟩
  simp only [vacated, List.set_set]
  rfl

/-- A flush that does not return leaves the chosen record without an owner, and the owner
without a tag. -/
theorem assign_run_stuck (h : x.pool.held? x.owners o = none)
    (hi : x.pool.records[x.pool.choice x.owners]? = some r) (hd : r.dirty = true)
    (hr : r.tag ∈ x.trace.failing .everywhere) :
    ∃ L', assign o ⟨x, L⟩ = .error (.abort (.flushFailed r.tag))
      ⟨x.stuck (x.pool.choice x.owners) r, L'⟩ := by
  obtain ⟨L₁, h₁⟩ := assign_run_choice (L := L) h hi
  have hvac : (x.ticked.vacated (x.pool.choice x.owners) r).pool.records[x.pool.choice x.owners]? =
      some { r with owner := none } := (getElem?_set_of_some hi).trans (if_pos rfl)
  have h₂ := clean_run_failing (L := L₁) hvac hd hr
  exact ⟨L₁, h₁.trans (Action.bind_run_error h₂)⟩

/-- The ways in which an assignment ends, with the record that it has settled on. -/
inductive Picks (x : Tagging) (o : OwnerId) : Except Stop Assignment → Tagging → Prop
  | held {i : Nat} {r : TagRecord} (hheld : x.pool.held? x.owners o = some i)
      (hi : x.pool.records[i]? = some r) :
      Picks x o (.ok ⟨r.tag, r.epoch, true, false⟩) (x.renewed i r o)
  | given {r : TagRecord} (hheld : x.pool.held? x.owners o = none)
      (hi : x.pool.records[x.pool.choice x.owners]? = some r)
      (hr : r.dirty = true → r.tag ∉ x.trace.failing .everywhere) :
      Picks x o (.ok ⟨r.tag, r.epoch + r.dirty.toNat, false, r.dirty⟩)
        (x.rebound (x.pool.choice x.owners) r o)
  | stuck {r : TagRecord} (hheld : x.pool.held? x.owners o = none)
      (hi : x.pool.records[x.pool.choice x.owners]? = some r) (hd : r.dirty = true)
      (hr : r.tag ∈ x.trace.failing .everywhere) :
      Picks x o (.error (.abort (.flushFailed r.tag))) (x.stuck (x.pool.choice x.owners) r)

theorem assign_run (hne : x.pool.records ≠ []) (o : OwnerId) (L : Array LogRecord) :
    (∃ a y L', assign o ⟨x, L⟩ = .ok a ⟨y, L'⟩ ∧ Picks x o (.ok a) y) ∨
      ∃ e y L', assign o ⟨x, L⟩ = .error e ⟨y, L'⟩ ∧ Picks x o (.error e) y := by
  cases hheld : x.pool.held? x.owners o with
  | some i =>
    obtain ⟨r, hi, -⟩ := TagPool.held?_eq_some hheld
    exact Or.inl ⟨_, _, L, assign_run_held hheld hi, .held hheld hi⟩
  | none =>
    obtain ⟨r, hi⟩ := TagPool.exists_choice (w := x.owners) hne
    by_cases hfail : r.dirty = true ∧ r.tag ∈ x.trace.failing .everywhere
    · obtain ⟨L', hrun⟩ := assign_run_stuck (o := o) (L := L) hheld hi hfail.1 hfail.2
      exact Or.inr ⟨_, _, L', hrun, .stuck hheld hi hfail.1 hfail.2⟩
    · have hr : r.dirty = true → r.tag ∉ x.trace.failing .everywhere := fun hd ht => hfail ⟨hd, ht⟩
      obtain ⟨L', hrun⟩ := assign_run_unheld (o := o) (L := L) hheld hi hr
      exact Or.inl ⟨_, _, L', hrun, .given hheld hi hr⟩

theorem picks (hne : x.pool.records ≠ []) (o : OwnerId) :
    Picks x o ((assign o).outcome x) ((assign o).final x) := by
  unfold Action.outcome Action.final
  rcases assign_run hne o #[] with ⟨a, y, L', hrun, ha⟩ | ⟨e, y, L', hrun, he⟩
  · rwa [hrun]
  · rwa [hrun]

theorem release_run_held (h : x.pool.held? x.owners o = some i)
    (hi : x.pool.records[i]? = some r) :
    release o ⟨x, L⟩ = .ok (some r.tag) ⟨x.vacated i r, L⟩ := by
  unfold release
  refine (Action.bind_run rfl).trans ?_
  dsimp only
  rw [h]
  exact (Action.bind_run (record_run hi)).trans ((Action.bind_run (unbind_run hi)).trans rfl)

theorem release_run_unheld (h : x.pool.held? x.owners o = none) :
    release o ⟨x, L⟩ = .ok none ⟨x, L.push (.unboundReleased o)⟩ := by
  unfold release
  refine (Action.bind_run rfl).trans ?_
  dsimp only
  rw [h]
  rfl

end Tagging

end Sandbox
