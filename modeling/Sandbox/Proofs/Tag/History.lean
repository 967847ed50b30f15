import Mathlib.Data.List.Nodup
import Sandbox.Proofs.Tag.Flushes

/-! # The history of a pool

A pool and its owners go through a history of calls, in which flushes may fail from some
point on and work again later. As long as each flush has returned, the epoch of a tag counts
its flushes, and a tag that was bound before is flushed exactly when it changes hands.
-/

namespace Sandbox

structure Owners.Unbound (w : Owners) : Prop where
  empty : ∀ {o : OwnerId} {t : Asid}, w.tag? o = some t → t = 0
  live_lt : ∀ {o : OwnerId} {t : Asid}, w.tag? o = some t → o.number < w.next.number

theorem Owners.unbound_empty : ({} : Owners).Unbound := by
  have hnone (o : OwnerId) : ({} : Owners).tag? o = none := Std.ExtTreeMap.getElem?_empty
  constructor
  · intro o t ht
    cases (hnone o).symm.trans ht
  · intro o t ht
    cases (hnone o).symm.trans ht

namespace TagPool

variable {p : TagPool} {start size limit : Asid}

def tags (start size : Asid) : List Asid :=
  (List.range size.toNat).map fun i => start + BitVec.ofNat 16 i

theorem create_eq_ok (h : create start size limit = .ok p) :
    size ≠ 0 ∧ start ≠ 0 ∧ start.toNat + size.toNat ≤ limit.toNat + 1 ∧
      p.records = (tags start size).map fun t => { tag := t } := by
  unfold create at h
  split_ifs at h with hsize hstart hlimit
  refine ⟨hsize, hstart, Nat.le_of_not_lt hlimit, ?_⟩
  rw [← Except.ok.inj h, tags, List.map_map]
  rfl

theorem toNat_tag (h : start.toNat + size.toNat ≤ limit.toNat + 1) {i : Nat}
    (hi : i < size.toNat) : (start + BitVec.ofNat 16 i).toNat = start.toNat + i := by
  have := limit.isLt
  rw [BitVec.toNat_add, BitVec.toNat_ofNat]
  omega

theorem mem_tags (h : start.toNat + size.toNat ≤ limit.toNat + 1) {t : Asid} :
    t ∈ tags start size ↔ start.toNat ≤ t.toNat ∧ t.toNat < start.toNat + size.toNat := by
  simp only [tags, List.mem_map, List.mem_range]
  constructor
  · rintro ⟨i, hi, rfl⟩
    rw [toNat_tag h hi]
    omega
  · rintro ⟨hle, hlt⟩
    have hi : t.toNat - start.toNat < size.toNat := by omega
    refine ⟨t.toNat - start.toNat, hi, BitVec.eq_of_toNat_eq ?_⟩
    rw [toNat_tag h hi]
    omega

theorem le_limit (h : start.toNat + size.toNat ≤ limit.toNat + 1) :
    ∀ t ∈ tags start size, t ≤ limit := by
  intro t ht
  obtain ⟨-, hlt⟩ := (mem_tags h).mp ht
  rw [BitVec.le_def]
  omega

theorem nodup_tags (h : start.toNat + size.toNat ≤ limit.toNat + 1) : (tags start size).Nodup := by
  refine List.Nodup.map_on ?_ List.nodup_range
  intro i hi j hj hij
  rw [List.mem_range] at hi hj
  have hnat := congrArg BitVec.toNat hij
  rw [toNat_tag h hi, toNat_tag h hj] at hnat
  omega

theorem epoch_eq {T : List Asid} {w : Owners} (h : Agreement T p.records w) {i : Nat}
    {r : TagRecord} (hi : p.records[i]? = some r) : p.epoch r.tag = some r.epoch := by
  rw [epoch, h.find?_tag hi, Option.map_some]

theorem epoch_eq_none {T : List Asid} {w : Owners} (h : Agreement T p.records w) {t : Asid}
    (ht : t ∉ T) : p.epoch t = none := by
  rw [epoch, Option.map_eq_none_iff, List.find?_eq_none]
  intro q hq heq
  refine ht ?_
  rw [← beq_iff_eq.mp heq, ← h.tags]
  exact List.mem_map_of_mem hq

end TagPool

namespace Tagging

variable {p : TagPool} {T : List Asid} {x y : Tagging} {start size limit : Asid}

/-- What is done with a pool and its owners. -/
inductive Deed
  | created
  | assigned (o : OwnerId) (a : Assignment)
  /-- An assignment that a flush did not let return. -/
  | aborted (o : OwnerId)
  | released (o : OwnerId) (t : Option Asid)
  | lookedUp (o : OwnerId) (t : Option Asid)
  | dropped (o : OwnerId)
  /-- From now on the flushes of these tags fail in each scope. -/
  | rigged (failing : FlushScope → List Asid)

def Deed.Binds (t : Asid) : Deed → Prop
  | .assigned _ a => a.tag = t
  | _ => False

/-- One deed, and the state in which it ends. Only live owners can be assigned a tag. -/
inductive Step (x : Tagging) : Deed → Tagging → Prop
  | create : Step x .created { x with owners := x.owners.create }
  | assign {o : OwnerId} {a : Assignment} (ho : x.owners.isLive o = true)
      (ha : (assign o).outcome x = .ok a) : Step x (.assigned o a) ((assign o).final x)
  | abort {o : OwnerId} {e : Stop} (ho : x.owners.isLive o = true)
      (he : (assign o).outcome x = .error e) : Step x (.aborted o) ((assign o).final x)
  | release {o : OwnerId} {t : Option Asid} (ht : (release o).outcome x = .ok t) :
      Step x (.released o t) ((release o).final x)
  | lookup (o : OwnerId) : Step x (.lookedUp o (x.pool.lookup x.owners o)) x
  | drop (o : OwnerId) : Step x (.dropped o) { x with owners := x.owners.drop o }
  | rig (failing : FlushScope → List Asid) :
      Step x (.rigged failing) { x with trace.failing := failing }

/-- The deeds so far, the latest one first, and the state that they lead to. -/
inductive Run (p : TagPool) : List Deed → Tagging → Prop
  | start {w : Owners} (hw : w.Unbound) : Run p [] ⟨p, w, {}⟩
  | step {l : List Deed} {x : Tagging} {d : Deed} {y : Tagging} (h : Run p l x)
      (hstep : Step x d y) : Run p (d :: l) y

/-! ## Every history keeps a pool sound -/

theorem Sound.of_create (hp : TagPool.create start size limit = .ok p) {w : Owners} (hw : w.Unbound) :
    Sound (TagPool.tags start size) ⟨p, w, {}⟩ := by
  obtain ⟨hsize, hstart, hle, hrecords⟩ := TagPool.create_eq_ok hp
  have howner {i : Nat} {r : TagRecord} {o : OwnerId} (hi : p.records[i]? = some r) :
      r.owner ≠ some o := by
    rw [hrecords] at hi
    obtain ⟨t, -, rfl⟩ := List.mem_map.mp (List.mem_of_getElem? hi)
    exact nofun
  refine ⟨⟨?_, TagPool.nodup_tags hle, ?_, fun hi hr => absurd hr (howner hi), ?_, hw.live_lt,
    fun hi hr => absurd hr (howner hi)⟩, ?_, fun hi hr => absurd hr (howner hi)⟩
  · rw [hrecords, List.map_map]
    exact List.map_id _
  · rw [TagPool.mem_tags hle]
    rintro ⟨h0, -⟩
    exact hstart (BitVec.eq_of_toNat_eq (Nat.le_zero.mp h0))
  · exact fun ht ht0 => absurd (hw.empty ht) ht0
  · rw [TagPool.tags, Ne, List.map_eq_nil_iff, List.range_eq_nil]
    exact fun h0 => hsize (BitVec.eq_of_toNat_eq h0)

theorem Step.sound {d : Deed} (hstep : Step x d y) (h : Sound T x) : Sound T y := by
  cases hstep with
  | create => exact h.create
  | assign ho => exact (h.assigns ho).sound h
  | abort ho => exact (h.assigns ho).sound h
  | release => exact h.release _
  | lookup => exact h
  | drop => exact h.drop _
  | rig => exact ⟨h.agreement, h.nonempty, h.dirty⟩

theorem Run.sound {l : List Deed} (hp : TagPool.create start size limit = .ok p) (h : Run p l x) :
    Sound (TagPool.tags start size) x := by
  induction h with
  | start hw => exact .of_create hp hw
  | step _ hstep ih => exact hstep.sound ih

theorem Assigns.epoch_eq {o : OwnerId} {a : Assignment} (hx : Assigns x o (.ok a) y)
    (h : Sound T x) : y.pool.epoch a.tag = some a.epoch := by
  have hy := (hx.sound h).agreement
  cases hx with
  | @held i r hi =>
    have hj : (x.renewed i r o).pool.records[i]? =
        some { r with lastAssigned := x.pool.clock + 1 } :=
      (getElem?_set_of_some hi).trans (if_pos rfl)
    have heq := TagPool.epoch_eq hy hj
    exact heq
  | @given i r hi =>
    have hj : (x.rebound i r o).pool.records[i]? =
        some ⟨r.tag, some o, r.epoch + r.dirty.toNat, true, x.pool.clock + 1⟩ :=
      (getElem?_set_of_some hi).trans (if_pos rfl)
    have heq := TagPool.epoch_eq hy hj
    exact heq

/-! ## Records tell the history -/

/-- The records count the flushes and tell which tags were bound. -/
structure Recorded (T : List Asid) (l : List Deed) (x : Tagging) : Prop where
  counted : Counted T x
  dirty_iff : ∀ {i : Nat} {r : TagRecord}, x.pool.records[i]? = some r →
    (r.dirty = true ↔ ∃ d ∈ l, d.Binds r.tag)
  stranger : ∀ {t : Asid}, t ∉ T → x.trace.flushes t = 0

namespace Recorded

variable {l : List Deed} {d : Deed} {i : Nat} {r : TagRecord} {o : OwnerId}

theorem of_create (hp : TagPool.create start size limit = .ok p) {w : Owners} (hw : w.Unbound) :
    Recorded (TagPool.tags start size) [] ⟨p, w, {}⟩ := by
  obtain ⟨-, -, -, hrecords⟩ := TagPool.create_eq_ok hp
  have hnew {i : Nat} {r : TagRecord} (hi : p.records[i]? = some r) :
      r.epoch = 0 ∧ r.dirty = false := by
    rw [hrecords] at hi
    obtain ⟨t, -, rfl⟩ := List.mem_map.mp (List.mem_of_getElem? hi)
    exact ⟨rfl, rfl⟩
  refine ⟨⟨.of_create hp hw, fun hi => (hnew hi).1⟩, fun hi => ?_, fun _ => rfl⟩
  rw [(hnew hi).2]
  simp

/-- A deed that binds no tag and leaves records and flushes alone. -/
theorem quiet (h : Recorded T l x) (hy : Sound T y) (hrecords : y.pool.records = x.pool.records)
    (htrace : ∀ t, y.trace.flushes t = x.trace.flushes t) (hd : ∀ t, ¬ d.Binds t) :
    Recorded T (d :: l) y := by
  refine ⟨⟨hy, fun hi => ?_⟩, fun hi => ?_, fun ht => ?_⟩
  · rw [htrace, h.counted.epoch (hrecords ▸ hi)]
  · rw [h.dirty_iff (hrecords ▸ hi), List.exists_mem_cons_iff, or_iff_right (hd _)]
  · rw [htrace, h.stranger ht]

theorem vacated (h : Recorded T l x) (hi : x.pool.records[i]? = some r) (hd : ∀ t, ¬ d.Binds t) :
    Recorded T (d :: l) (x.vacated i r) := by
  have hdirty := h.dirty_iff hi
  refine ⟨h.counted.vacated hi, fun {j q} hj => ?_, h.stranger⟩
  rw [List.exists_mem_cons_iff, or_iff_right (hd _)]
  obtain ⟨rfl, rfl⟩ | ⟨-, hj⟩ := set_cases hi hj
  · exact hdirty
  · exact h.dirty_iff hj

theorem renewed (h : Recorded T l x) (hi : x.pool.records[i]? = some r)
    (ho : r.liveOwner x.owners = some o) (hd : ∀ t, d.Binds t ↔ r.tag = t) :
    Recorded T (d :: l) (x.renewed i r o) := by
  have hdirty := h.counted.sound.dirty hi (TagRecord.liveOwner_eq_some_iff.mp ho).1
  refine ⟨h.counted.renewed hi ho, fun {j q} hj => ?_, h.stranger⟩
  rw [List.exists_mem_cons_iff, hd]
  obtain ⟨rfl, rfl⟩ | ⟨hij, hj⟩ := set_cases hi hj
  · exact ⟨fun _ => Or.inl rfl, fun _ => hdirty⟩
  · rw [or_iff_right fun ht => hij (h.counted.sound.agreement.index_eq hi hj ht), h.dirty_iff hj]

theorem rebound (h : Recorded T l x) (hi : x.pool.records[i]? = some r)
    (ho : x.owners.tag? o = some 0) (hd : ∀ t, d.Binds t ↔ r.tag = t) :
    Recorded T (d :: l) (x.rebound i r o) := by
  have hagree := h.counted.sound.agreement
  refine ⟨h.counted.rebound hi ho, fun {j q} hj => ?_, fun {t} ht => ?_⟩
  · rw [List.exists_mem_cons_iff, hd]
    obtain ⟨rfl, rfl⟩ | ⟨hij, hj⟩ := set_cases hi hj
    · exact ⟨fun _ => Or.inl rfl, fun _ => rfl⟩
    · rw [or_iff_right fun ht => hij (hagree.index_eq hi hj ht), h.dirty_iff hj]
  · have hne : r.tag ≠ t := fun heq => ht (heq ▸ hagree.mem_tags hi)
    rw [flushes_rebound, if_neg hne, h.stranger ht]

end Recorded

theorem Step.recorded {l : List Deed} {d : Deed} (hstep : Step x d y)
    (hd : ∀ o, d ≠ .aborted o) (h : Recorded T l x) : Recorded T (d :: l) y := by
  have hsound := hstep.sound h.counted.sound
  cases hstep with
  | create => exact h.quiet hsound rfl (fun _ => rfl) nofun
  | assign ho ha =>
    have hassign := h.counted.sound.assigns ho
    rw [ha] at hassign
    generalize (Tagging.assign _).final x = y at hassign
    cases hassign with
    | held hi hr => exact h.renewed hi hr fun t => Iff.rfl
    | given hi h0 => exact h.rebound hi h0 fun t => Iff.rfl
  | abort => exact absurd rfl (hd _)
  | @release o t =>
    rcases release_final x o with ⟨i, r, -, hi, heq⟩ | ⟨-, heq⟩
    · rw [heq]
      exact h.vacated hi nofun
    · rw [heq]
      exact h.quiet h.counted.sound rfl (fun _ => rfl) nofun
  | lookup => exact h.quiet hsound rfl (fun _ => rfl) nofun
  | drop => exact h.quiet hsound rfl (fun _ => rfl) nofun
  | rig => exact h.quiet hsound rfl (fun _ => rfl) nofun

theorem Run.recorded {l : List Deed} (hp : TagPool.create start size limit = .ok p) (h : Run p l x)
    (hret : ∀ o, .aborted o ∉ l) : Recorded (TagPool.tags start size) l x := by
  induction h with
  | start hw => exact .of_create hp hw
  | step _ hstep ih =>
    refine hstep.recorded ?_ (ih fun o ho => hret o (List.mem_cons_of_mem _ ho))
    rintro o rfl
    exact hret o List.mem_cons_self

end Tagging

end Sandbox
