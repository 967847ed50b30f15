import Sandbox.Proofs.Tag.Assign

/-! # Sound pools

A pool is sound if its records agree with the slots and every owner of a record has left it
dirty. Each call ends in one of a few ways, and each of them keeps the pool sound.
-/

namespace Sandbox

namespace TagPool

variable {p : TagPool} {w : Owners} {o : OwnerId} {r : TagRecord} {t : Asid}

theorem lookup_eq_some (h : p.lookup w o = some t) :
    ∃ (i : Nat) (r : TagRecord),
      p.records[i]? = some r ∧ r.liveOwner w = some o ∧ r.tag = t := by
  obtain ⟨r, hr, ht⟩ := Option.map_eq_some_iff.mp h
  obtain ⟨i, hi⟩ := List.getElem?_of_mem (List.mem_of_find?_eq_some hr)
  have ho := List.find?_some hr
  exact ⟨i, r, hi, beq_iff_eq.mp ho, ht⟩

theorem exists_lookup (hr : r ∈ p.records) (ho : r.liveOwner w = some o) :
    ∃ t, p.lookup w o = some t := by
  have hsome : (p.records.find? fun r => r.liveOwner w == some o).isSome := by
    rw [List.find?_isSome]
    exact ⟨r, hr, beq_iff_eq.mpr ho⟩
  obtain ⟨r', hr'⟩ := Option.isSome_iff_exists.mp hsome
  exact ⟨r'.tag, Option.map_eq_some_iff.mpr ⟨r', hr', rfl⟩⟩

end TagPool

namespace Tagging

variable {T : List Asid} {x y : Tagging} {i : Nat} {r : TagRecord} {o : OwnerId} {t : Asid}

/-- The records of a pool of the tags `T` agree with the slots, and what has an owner is
dirty. -/
structure Sound (T : List Asid) (x : Tagging) : Prop where
  agreement : Agreement T x.pool.records x.owners
  nonempty : T ≠ []
  dirty : ∀ {i : Nat} {r : TagRecord} {o : OwnerId},
    x.pool.records[i]? = some r → r.owner = some o → r.dirty = true

namespace Sound

theorem records_ne_nil (h : Sound T x) : x.pool.records ≠ [] := by
  intro hnil
  have htags := h.agreement.tags
  rw [hnil] at htags
  exact h.nonempty htags.symm

theorem lookup_eq_some_iff (h : Sound T x) :
    x.pool.lookup x.owners o = some t ↔ x.owners.tag? o = some t ∧ t ≠ 0 := by
  constructor
  · intro hlook
    obtain ⟨i, r, hi, hr, rfl⟩ := TagPool.lookup_eq_some hlook
    obtain ⟨ho, hlive⟩ := TagRecord.liveOwner_eq_some_iff.mp hr
    obtain ⟨t, ht⟩ := Owners.isLive_iff.mp hlive
    obtain rfl := h.agreement.bound hi ho ht
    exact ⟨ht, h.agreement.tag_ne_zero hi⟩
  · rintro ⟨ht, ht0⟩
    obtain ⟨i, r, hi, ho, rfl⟩ := h.agreement.held ht ht0
    have hr : r.liveOwner x.owners = some o :=
      TagRecord.liveOwner_eq_some_iff.mpr ⟨ho, Owners.isLive_iff.mpr ⟨r.tag, ht⟩⟩
    obtain ⟨t, hlook⟩ := TagPool.exists_lookup (List.mem_of_getElem? hi) hr
    obtain ⟨j, r', hj, hr', rfl⟩ := TagPool.lookup_eq_some hlook
    rwa [h.agreement.record_unique hi hj hr hr']

theorem owner_unique (h : Sound T x) {o' : OwnerId} (ht : x.owners.tag? o = some t)
    (ht' : x.owners.tag? o' = some t) (ht0 : t ≠ 0) : o' = o := by
  obtain ⟨i, r, hi, ho, rfl⟩ := h.agreement.held ht ht0
  obtain ⟨j, r', hj, ho', htag⟩ := h.agreement.held ht' ht0
  obtain rfl := h.agreement.record_eq hi hj htag.symm
  exact Option.some.inj (ho'.symm.trans ho)

theorem tag?_of_unheld (h : Sound T x) (ho : x.owners.isLive o = true)
    (hheld : x.pool.held? x.owners o = none) : x.owners.tag? o = some 0 := by
  obtain ⟨t, ht⟩ := Owners.isLive_iff.mp ho
  by_cases ht0 : t = 0
  · rw [ht, ht0]
  · obtain ⟨i, r, hi, hr, -⟩ := h.agreement.held ht ht0
    exact absurd (TagRecord.liveOwner_eq_some_iff.mpr ⟨hr, ho⟩)
      (TagPool.held?_eq_none_iff.mp hheld r (List.mem_of_getElem? hi))

/-! ## Steps that keep a pool sound -/

theorem vacated (h : Sound T x) (hi : x.pool.records[i]? = some r) : Sound T (x.vacated i r) := by
  refine ⟨h.agreement.agreement_vacate hi, h.nonempty, fun {j q o} hj hq => ?_⟩
  obtain ⟨-, rfl⟩ | ⟨-, hj⟩ := set_cases hi hj
  · cases hq
  · exact h.dirty hj hq

theorem renewed (h : Sound T x) (hi : x.pool.records[i]? = some r)
    (ho : r.liveOwner x.owners = some o) : Sound T (x.renewed i r o) := by
  obtain ⟨hr, hlive⟩ := TagRecord.liveOwner_eq_some_iff.mp ho
  obtain ⟨t, ht⟩ := Owners.isLive_iff.mp hlive
  obtain rfl := h.agreement.bound hi hr ht
  refine ⟨?_, h.nonempty, fun {j q o'} hj hq => ?_⟩
  · rw [show (x.renewed i r o).owners = x.owners from Owners.bind_self ht]
    exact h.agreement.agreement_set hi rfl rfl
  · obtain ⟨-, rfl⟩ | ⟨-, hj⟩ := set_cases hi hj
    · exact (h.dirty hi hr : r.dirty = true)
    · exact h.dirty hj hq

theorem rebound (h : Sound T x) (hi : x.pool.records[i]? = some r)
    (ho : x.owners.tag? o = some 0) : Sound T (x.rebound i r o) := by
  have hvac := h.agreement.agreement_vacate hi
  have hi' : (x.pool.records.set i { r with owner := none })[i]? =
      some { r with owner := none } := (getElem?_set_of_some hi).trans (if_pos rfl)
  have ho' : (x.owners.vacate r.owner).tag? o = some 0 := by
    rw [Owners.tag?_vacate, ho]
    split <;> rfl
  refine ⟨?_, h.nonempty, fun {j q o'} hj hq => ?_⟩
  · have hgrant := hvac.agreement_bind hi' rfl ho'
      ⟨r.tag, some o, r.epoch + r.dirty.toNat, true, x.pool.clock + 1⟩ rfl rfl
    rwa [List.set_set] at hgrant
  · obtain ⟨-, rfl⟩ | ⟨-, hj⟩ := set_cases hi hj
    · rfl
    · exact h.dirty hj hq

theorem stuck (h : Sound T x) (hi : x.pool.records[i]? = some r) : Sound T (x.stuck i r) :=
  have hvac := h.vacated hi
  ⟨hvac.agreement, hvac.nonempty, hvac.dirty⟩

theorem congr (h : Sound T x) (hpool : y.pool = x.pool) (howners : y.owners = x.owners) :
    Sound T y := by
  constructor
  · rw [hpool, howners]
    exact h.agreement
  · exact h.nonempty
  · rw [hpool]
    exact h.dirty

theorem create (h : Sound T x) : Sound T { x with owners := x.owners.create } :=
  ⟨h.agreement.agreement_create, h.nonempty, h.dirty⟩

theorem drop (h : Sound T x) (o : OwnerId) : Sound T { x with owners := x.owners.drop o } :=
  ⟨h.agreement.agreement_drop o, h.nonempty, h.dirty⟩

/-- A tag is in no slot while it is flushed for a new owner. -/
theorem cleaning_eq (h : Sound T x) (hi : x.pool.records[i]? = some r) :
    x.cleaning r = .flush .everywhere r.tag [] := by
  have hi' : (x.vacated i r).pool.records[i]? = some { r with owner := none } :=
    (getElem?_set_of_some hi).trans (if_pos rfl)
  have hnone := (h.vacated hi).agreement.holders_eq_nil hi' rfl
  exact congrArg (Event.flush .everywhere r.tag) hnone

end Sound

/-! ## How the calls end -/

inductive Assigns (x : Tagging) (o : OwnerId) : Except Stop Assignment → Tagging → Prop
  | held {i : Nat} {r : TagRecord} (hi : x.pool.records[i]? = some r)
      (ho : r.liveOwner x.owners = some o) :
      Assigns x o (.ok ⟨r.tag, r.epoch, true, false⟩) (x.renewed i r o)
  | given {i : Nat} {r : TagRecord} (hi : x.pool.records[i]? = some r)
      (ho : x.owners.tag? o = some 0)
      (hr : r.dirty = true → r.tag ∉ x.trace.failing .everywhere) :
      Assigns x o (.ok ⟨r.tag, r.epoch + r.dirty.toNat, false, r.dirty⟩) (x.rebound i r o)
  | stuck {i : Nat} {r : TagRecord} (hi : x.pool.records[i]? = some r)
      (ho : x.owners.tag? o = some 0) (hd : r.dirty = true)
      (hr : r.tag ∈ x.trace.failing .everywhere) :
      Assigns x o (.error (.abort (.flushFailed r.tag))) (x.stuck i r)

theorem Picks.assigns {res : Except Stop Assignment} (hx : Picks x o res y) (h : Sound T x)
    (ho : x.owners.isLive o = true) : Assigns x o res y := by
  cases hx with
  | @held i r hheld hi =>
    obtain ⟨r', hi', hr⟩ := TagPool.held?_eq_some hheld
    obtain rfl := Option.some.inj (hi.symm.trans hi')
    exact .held hi hr
  | given hheld hi hr => exact .given hi (h.tag?_of_unheld ho hheld) hr
  | stuck hheld hi hd hr => exact .stuck hi (h.tag?_of_unheld ho hheld) hd hr

theorem Sound.assign_run (h : Sound T x) (ho : x.owners.isLive o = true) (L : Array LogRecord) :
    (∃ a y L', assign o ⟨x, L⟩ = .ok a ⟨y, L'⟩ ∧ Assigns x o (.ok a) y) ∨
      ∃ e y L', assign o ⟨x, L⟩ = .error e ⟨y, L'⟩ ∧ Assigns x o (.error e) y := by
  rcases Tagging.assign_run h.records_ne_nil o L with ⟨a, y, L', hrun, ha⟩ | ⟨e, y, L', hrun, he⟩
  · exact Or.inl ⟨a, y, L', hrun, ha.assigns h ho⟩
  · exact Or.inr ⟨e, y, L', hrun, he.assigns h ho⟩

/-- An assignment to a live owner ends in one of these ways. -/
theorem Sound.assigns (h : Sound T x) (ho : x.owners.isLive o = true) :
    Assigns x o ((assign o).outcome x) ((assign o).final x) :=
  (picks h.records_ne_nil o).assigns h ho

theorem Assigns.sound {res : Except Stop Assignment} (hx : Assigns x o res y) (h : Sound T x) :
    Sound T y := by
  cases hx with
  | held hi ho => exact h.renewed hi ho
  | given hi ho => exact h.rebound hi ho
  | stuck hi => exact h.stuck hi

theorem Assigns.tag?_eq {a : Assignment} (hx : Assigns x o (.ok a) y) (h : Sound T x) :
    y.owners.tag? o = some a.tag := by
  cases hx with
  | held hi ho =>
    obtain ⟨hr, hlive⟩ := TagRecord.liveOwner_eq_some_iff.mp ho
    obtain ⟨t, ht⟩ := Owners.isLive_iff.mp hlive
    obtain rfl := h.agreement.bound hi hr ht
    rw [renewed, Owners.bind_self ht, ht]
  | given hi ho =>
    rw [rebound, Owners.tag?_bind, if_pos rfl, Owners.tag?_vacate, ho]
    split <;> rfl

theorem Assigns.isLive_eq {res : Except Stop Assignment} {o' : OwnerId} (hx : Assigns x o res y) :
    y.owners.isLive o' = x.owners.isLive o' := by
  cases hx with
  | held => exact Owners.isLive_bind
  | given => exact Owners.isLive_bind.trans Owners.isLive_vacate
  | stuck => exact Owners.isLive_vacate

theorem Assigns.failing_eq {res : Except Stop Assignment} (hx : Assigns x o res y) :
    y.trace.failing = x.trace.failing := by
  cases hx with
  | held => rfl
  | given =>
    unfold rebound
    split <;> rfl
  | stuck => rfl

theorem release_final (x : Tagging) (o : OwnerId) :
    (∃ i r, x.pool.held? x.owners o = some i ∧ x.pool.records[i]? = some r ∧
        (release o).final x = x.vacated i r) ∨
      x.pool.held? x.owners o = none ∧ (release o).final x = x := by
  unfold Action.final
  cases hheld : x.pool.held? x.owners o with
  | some i =>
    obtain ⟨r, hi, -⟩ := TagPool.held?_eq_some hheld
    rw [release_run_held hheld hi]
    exact Or.inl ⟨i, r, rfl, hi, rfl⟩
  | none =>
    rw [release_run_unheld hheld]
    exact Or.inr ⟨rfl, rfl⟩

theorem trace_release (x : Tagging) (o : OwnerId) : ((release o).final x).trace = x.trace := by
  rcases release_final x o with ⟨i, r, -, -, heq⟩ | ⟨-, heq⟩
  · rw [heq]
    rfl
  · rw [heq]

theorem Sound.release (h : Sound T x) (o : OwnerId) : Sound T ((release o).final x) := by
  rcases release_final x o with ⟨i, r, -, hi, heq⟩ | ⟨-, heq⟩
  · exact heq ▸ h.vacated hi
  · exact heq.symm ▸ h

end Tagging

end Sandbox
