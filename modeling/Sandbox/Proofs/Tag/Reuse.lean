import Sandbox.Proofs.Tag.History

/-! # Flushes on reuse

A tag that was bound before is flushed once when another owner gets it, at a moment when no
slot holds it. Nothing else that is done with a pool flushes.
-/

namespace Sandbox

namespace Tagging

variable {p : TagPool} {T : List Asid} {x y : Tagging} {l : List Deed} {o : OwnerId}
  {a : Assignment} {start size limit : Asid}

/-- What an assignment reports and does after the deeds `l`. The flush finds no holder of the
tag, so it comes before the slot of the new owner is written. -/
structure Fair (l : List Deed) (x : Tagging) (o : OwnerId) (a : Assignment) (y : Tagging) :
    Prop where
  hit : x.pool.lookup x.owners o = if a.reused then some a.tag else none
  flushed : a.flushed = true ↔ a.reused = false ∧ ∃ d ∈ l, d.Binds a.tag
  events : y.trace.events =
    if a.flushed then x.trace.events.push (.flush .everywhere a.tag []) else x.trace.events
  slot : y.owners.tag o = a.tag
  epoch : a.epoch = y.trace.flushes a.tag

theorem Recorded.fair (h : Recorded T l x) (hx : Assigns x o (.ok a) y) : Fair l x o a y := by
  have hsound := h.counted.sound
  have hepoch := (h.counted.assigned hx).2
  have hslot := Owners.tag_eq (hx.tag?_eq hsound)
  cases hx with
  | @held i r hi ho =>
    obtain ⟨hr, hlive⟩ := TagRecord.liveOwner_eq_some_iff.mp ho
    obtain ⟨t, ht⟩ := Owners.isLive_iff.mp hlive
    obtain rfl := hsound.agreement.bound hi hr ht
    refine ⟨?_, by simp, rfl, hslot, hepoch⟩
    exact hsound.lookup_eq_some_iff.mpr ⟨ht, hsound.agreement.tag_ne_zero hi⟩
  | @given i r hi ho hr =>
    refine ⟨?_, ?_, ?_, hslot, hepoch⟩
    · refine Option.eq_none_iff_forall_ne_some.mpr fun t ht => ?_
      obtain ⟨ht, ht0⟩ := hsound.lookup_eq_some_iff.mp ht
      exact ht0 (Option.some.inj (ht.symm.trans ho))
    · rw [h.dirty_iff hi, and_iff_right rfl]
    · rw [Tagging.rebound, apply_ite Trace.events, hsound.cleaning_eq hi]
      rfl

theorem Step.events_eq {d : Deed} (hstep : Step x d y) (ha : ∀ o a, d ≠ .assigned o a)
    (hb : ∀ o, d ≠ .aborted o) : y.trace.events = x.trace.events := by
  cases hstep with
  | assign => exact absurd rfl (ha _ _)
  | abort => exact absurd rfl (hb _)
  | release => rw [trace_release]
  | create => rfl
  | lookup => rfl
  | drop => rfl
  | rig => rfl

/-- As long as all flushes return, epochs count flushes, an assignment to a live owner returns
and flushes exactly the tags that were bound before, and no other deed flushes. -/
theorem Run.flushed_on_reuse (hp : TagPool.create start size limit = .ok p) (h : Run p l x)
    (hret : ∀ o, .aborted o ∉ l) :
    (∀ t, x.pool.epoch t =
      if start.toNat ≤ t.toNat ∧ t.toNat < start.toNat + size.toNat then
        some (x.trace.flushes t) else none) ∧
    (∀ o, x.owners.isLive o = true → x.trace.failing .everywhere = [] →
      ∃ a, (assign o).outcome x = .ok a) ∧
    (∀ o a y, Step x (.assigned o a) y → Fair l x o a y) ∧
    ∀ d y, Step x d y → (∀ o a, d ≠ .assigned o a) → (∀ o, d ≠ .aborted o) →
      y.trace.events = x.trace.events := by
  have hrec := h.recorded hp hret
  obtain ⟨-, -, hle, -⟩ := TagPool.create_eq_ok hp
  refine ⟨fun t => ?_, fun o ho hfail => ?_, fun o a y hstep => ?_, fun d y => Step.events_eq⟩
  · split
    · next ht =>
      rw [← TagPool.mem_tags hle] at ht
      obtain ⟨i, r, hi, rfl⟩ := hrec.counted.sound.agreement.exists_record ht
      rw [TagPool.epoch_eq hrec.counted.sound.agreement hi, hrec.counted.epoch hi]
    · next ht =>
      rw [← TagPool.mem_tags hle] at ht
      exact TagPool.epoch_eq_none hrec.counted.sound.agreement ht
  · have hassign := hrec.counted.sound.assigns ho
    generalize (assign o).final x = y at hassign
    generalize (assign o).outcome x = res at hassign ⊢
    cases hassign with
    | held => exact ⟨_, rfl⟩
    | given => exact ⟨_, rfl⟩
    | stuck _ _ _ hr =>
      rw [hfail] at hr
      cases hr
  · cases hstep with
    | assign ho ha =>
      have hassign := hrec.counted.sound.assigns ho
      rw [ha] at hassign
      exact hrec.fair hassign

def lentOut : Tagging :=
  (assign ⟨1⟩).final ⟨⟨[{ tag := 2 }], 0⟩, ({} : Owners).create.create, {}⟩

theorem run_lentOut : Run ⟨[{ tag := 2 }], 0⟩
    [.assigned ⟨1⟩ ⟨2, 0, false, false⟩, .created, .created] lentOut := by
  have hcreated := (Run.start (p := ⟨[{ tag := 2 }], 0⟩) Owners.unbound_empty).step .create
  exact (hcreated.step .create).step (.assign (by decide +kernel) (by decide +kernel))

/-- The second owner evicts the first one, with one flush. -/
theorem flushed_on_reuse_lentOut : (assign ⟨2⟩).outcome lentOut = .ok ⟨2, 1, false, true⟩ ∧
    ((assign ⟨2⟩).final lentOut).trace.events = #[.flush .everywhere 2 []] := by
  have hpool : TagPool.create 2 1 100 = .ok ⟨[{ tag := 2 }], 0⟩ := by decide
  have hreuse := run_lentOut.flushed_on_reuse hpool (by simp)
  have ha : (assign ⟨2⟩).outcome lentOut = .ok ⟨2, 1, false, true⟩ := by decide +kernel
  have hstep := Step.assign (by decide +kernel) ha
  refine ⟨ha, (hreuse.2.2.1 _ _ _ hstep).events.trans ?_⟩
  decide +kernel

end Tagging

end Sandbox
