import Sandbox.Proofs.Tag.Flushes

/-! # Entries under a tag

Since the last flush of a tag, the sandbox was entered under it for one owner only: the one
in the tag's record, or the last one there if the record has lost its owner.
-/

namespace Sandbox

theorem Trace.size_le_of_append {tr tr' : Trace} {l : List Event}
    (h : tr'.events.toList = tr.events.toList ++ l) : tr.events.size ≤ tr'.events.size := by
  rw [← Array.length_toList, ← Array.length_toList, h, List.length_append]
  exact Nat.le_add_right _ _

theorem Trace.getElem?_of_append {tr tr' : Trace} {l : List Event} {k : Nat} {e : Event}
    (h : tr'.events.toList = tr.events.toList ++ l) (hk : tr'.events[k]? = some e) :
    k < tr.events.size ∧ tr.events[k]? = some e ∨ tr.events.size ≤ k ∧ e ∈ l := by
  rw [← Array.getElem?_toList, h] at hk
  rcases Nat.lt_or_ge k tr.events.size with hlt | hge
  · rw [List.getElem?_append_left (by rwa [Array.length_toList]), Array.getElem?_toList] at hk
    exact Or.inl ⟨hlt, hk⟩
  · rw [List.getElem?_append_right (by rwa [Array.length_toList])] at hk
    exact Or.inr ⟨hge, List.mem_of_getElem? hk⟩

theorem Trace.getElem?_append {tr tr' : Trace} {l : List Event} {k : Nat} {e : Event}
    (h : tr'.events.toList = tr.events.toList ++ l) (hk : tr.events[k]? = some e) :
    k < tr.events.size ∧ tr'.events[k]? = some e := by
  have hlt : k < tr.events.size := (Array.getElem?_eq_some_iff.mp hk).1
  refine ⟨hlt, ?_⟩
  rw [← Array.getElem?_toList] at hk ⊢
  rw [h, List.getElem?_append_left (by rwa [Array.length_toList]), hk]

/-- The sandbox may have been entered under the tag of a record for an owner. -/
structure TagRecord.Shows (r : TagRecord) (t : Asid) (o : OwnerId) : Prop where
  tag : r.tag = t
  dirty : r.dirty = true
  owner : r.owner = some o ∨ r.owner = none

namespace Tagging

variable {T : List Asid} {x y : Tagging} {i : Nat} {r r' : TagRecord} {o : OwnerId} {t : Asid}
  {a : Assignment} {l : List Event}

theorem shows_set {l : List TagRecord} (hi : l[i]? = some r) (hr : r.Shows t o → r'.Shows t o)
    (h : ∃ (j : Nat) (q : TagRecord), l[j]? = some q ∧ q.Shows t o) :
    ∃ (j : Nat) (q : TagRecord), (l.set i r')[j]? = some q ∧ q.Shows t o := by
  obtain ⟨j, q, hj, hq⟩ := h
  by_cases hij : i = j
  · subst hij
    obtain rfl := Option.some.inj (hi.symm.trans hj)
    exact ⟨i, r', (getElem?_set_of_some hi).trans (if_pos rfl), hr hq⟩
  · exact ⟨j, q, (getElem?_set_of_some hi).trans ((if_neg hij).trans hj), hq⟩

/-- The records count flushes, and they show each entry that no flush has followed. -/
structure Guarded (T : List Asid) (x : Tagging) : Prop where
  counted : Counted T x
  failing : ∀ scope, x.trace.failing scope = []
  entered : ∀ {k cpu : Nat} {o : OwnerId} {t : Asid} {root : Word} {frame : TrapFrame},
    x.trace.events[k]? = some (.enter cpu o t root frame) →
      x.trace.flushesBefore k t < x.trace.flushes t ∨
        ∃ (i : Nat) (r : TagRecord), x.pool.records[i]? = some r ∧ r.Shows t o

theorem events_rebound : (x.rebound i r o).trace.events.toList =
    x.trace.events.toList ++ if r.dirty then [x.cleaning r] else [] := by
  unfold rebound
  split
  · exact Array.toList_push
  · exact (List.append_nil _).symm

namespace Guarded

theorem vacated (h : Guarded T x) (hi : x.pool.records[i]? = some r) :
    Guarded T (x.vacated i r) := by
  refine ⟨h.counted.vacated hi, h.failing, fun hk => (h.entered hk).imp_right ?_⟩
  exact shows_set hi fun hr => ⟨hr.tag, hr.dirty, Or.inr rfl⟩

theorem create (h : Guarded T x) : Guarded T { x with owners := x.owners.create } :=
  ⟨⟨h.counted.sound.create, h.counted.epoch⟩, h.failing, fun hk => h.entered hk⟩

theorem drop (h : Guarded T x) (o : OwnerId) :
    Guarded T { x with owners := x.owners.drop o } :=
  ⟨⟨h.counted.sound.drop o, h.counted.epoch⟩, h.failing, fun hk => h.entered hk⟩

theorem release (h : Guarded T x) (o : OwnerId) : Guarded T ((Tagging.release o).final x) := by
  rcases release_final x o with ⟨i, r, -, hi, heq⟩ | ⟨-, heq⟩
  · exact heq ▸ h.vacated hi
  · exact heq.symm ▸ h

theorem rebound (h : Guarded T x) (hi : x.pool.records[i]? = some r)
    (ho : x.owners.tag? o = some 0) : Guarded T (x.rebound i r o) := by
  have hfail (scope : FlushScope) : (x.rebound i r o).trace.failing scope = [] := by
    unfold Tagging.rebound
    split <;> exact h.failing scope
  refine ⟨h.counted.rebound hi ho, hfail, fun {k _ o' t _ _} hk => ?_⟩
  have hgrow : x.trace.flushes t ≤ (x.rebound i r o).trace.flushes t := by
    rw [flushes_rebound]
    exact Nat.le_add_right _ _
  rcases Trace.getElem?_of_append events_rebound hk with ⟨hlt, hk⟩ | ⟨-, hmem⟩
  · rw [Trace.flushesBefore_of_append events_rebound (Nat.le_of_lt hlt)]
    rcases h.entered hk with hless | ⟨j, q, hj, hq⟩
    · exact Or.inl (Nat.lt_of_lt_of_le hless hgrow)
    · by_cases ht : r.tag = t
      · obtain rfl := h.counted.sound.agreement.record_eq hi hj (ht.trans hq.tag.symm)
        left
        rw [flushes_rebound, if_pos ht, hq.dirty]
        exact Nat.lt_succ_of_le Trace.flushesBefore_le
      · exact Or.inr (shows_set hi (fun hr => absurd hr.tag ht) ⟨j, q, hj, hq⟩)
  · split at hmem
    · cases List.mem_singleton.mp hmem
    · cases hmem

theorem renewed (h : Guarded T x) (hi : x.pool.records[i]? = some r)
    (ho : r.liveOwner x.owners = some o) : Guarded T (x.renewed i r o) := by
  refine ⟨h.counted.renewed hi ho, h.failing, fun hk => (h.entered hk).imp_right ?_⟩
  exact shows_set hi fun hr => ⟨hr.tag, hr.dirty, hr.owner⟩

theorem assigned (h : Guarded T x) (hx : Assigns x o (.ok a) y) : Guarded T y := by
  cases hx with
  | held hi ho => exact h.renewed hi ho
  | given hi ho => exact h.rebound hi ho

theorem append (h : Guarded T x) (hpool : y.pool = x.pool) (howners : y.owners = x.owners)
    (hfail : y.trace.failing = x.trace.failing)
    (hl : y.trace.events.toList = x.trace.events.toList ++ l)
    (hquiet : ∀ e ∈ l, ∀ t, e.flushes t = false)
    (henter : ∀ cpu o t root frame, .enter cpu o t root frame ∈ l →
      ∃ (i : Nat) (r : TagRecord), x.pool.records[i]? = some r ∧ r.Shows t o) : Guarded T y := by
  have hflushes (t : Asid) : y.trace.flushes t = x.trace.flushes t :=
    Trace.flushes_of_quiet hl hquiet
  obtain ⟨pool, owners, tr⟩ := y
  obtain rfl : pool = x.pool := hpool
  obtain rfl : owners = x.owners := howners
  refine ⟨⟨⟨h.counted.sound.agreement, h.counted.sound.nonempty, h.counted.sound.dirty⟩,
    fun hi => (h.counted.epoch hi).trans (hflushes _).symm⟩, fun scope => hfail ▸ h.failing scope,
    ?_⟩
  intro k cpu o t root frame hk
  rcases Trace.getElem?_of_append hl hk with ⟨hlt, hk⟩ | ⟨-, hmem⟩
  · rw [hflushes, Trace.flushesBefore_of_append hl (Nat.le_of_lt hlt)]
    exact h.entered hk
  · exact Or.inr (henter cpu o t root frame hmem)

/-- An entry for another owner than the one in the record was followed by a flush. -/
theorem flushed_since (h : Guarded T x) (hi : x.pool.records[i]? = some r)
    (hr : r.owner = some o) {k cpu : Nat} {o' : OwnerId} {root : Word} {frame : TrapFrame}
    (hk : x.trace.events[k]? = some (.enter cpu o' r.tag root frame)) (hne : o' ≠ o) :
    x.trace.flushesBefore k r.tag < x.trace.flushes r.tag := by
  refine (h.entered hk).resolve_right ?_
  rintro ⟨j, q, hj, hq⟩
  obtain rfl := h.counted.sound.agreement.record_eq hi hj hq.tag.symm
  rcases hq.owner with ho | ho
  · exact hne (Option.some.inj (ho.symm.trans hr))
  · cases ho.symm.trans hr

end Guarded

theorem Assigns.owner_eq (hx : Assigns x o (.ok a) y) (h : Sound T x) :
    ∃ (i : Nat) (r : TagRecord), y.pool.records[i]? = some r ∧ r.tag = a.tag ∧ r.dirty = true ∧
      r.owner = some o := by
  cases hx with
  | @held i r hi ho =>
    have hr := (TagRecord.liveOwner_eq_some_iff.mp ho).1
    have hdirty := h.dirty hi hr
    exact ⟨i, _, (getElem?_set_of_some hi).trans (if_pos rfl), rfl, hdirty, hr⟩
  | @given i r hi =>
    exact ⟨i, _, (getElem?_set_of_some hi).trans (if_pos rfl), rfl, rfl, rfl⟩

theorem Assigns.events_eq (hx : Assigns x o (.ok a) y) :
    ∃ l, y.trace.events.toList = x.trace.events.toList ++ l ∧
      ∀ e ∈ l, ∃ holders, e = .flush .everywhere a.tag holders := by
  cases hx with
  | held => exact ⟨[], (List.append_nil _).symm, nofun⟩
  | given =>
    refine ⟨_, events_rebound, fun e he => ?_⟩
    split at he
    · exact ⟨_, List.mem_singleton.mp he⟩
    · cases he

theorem Assigns.events_stuck {e : Stop} (hx : Assigns x o (.error e) y) : ∃ t holders,
    y.trace.events.toList = x.trace.events.toList ++ [.flush .everywhere t holders] := by
  cases hx with
  | stuck => exact ⟨_, _, Array.toList_push⟩

/-- Whichever way an assignment ends, what it does comes after what was done before. -/
theorem Assigns.events_append {res : Except Stop Assignment} (hx : Assigns x o res y) :
    ∃ l, y.trace.events.toList = x.trace.events.toList ++ l := by
  cases res with
  | ok a => exact hx.events_eq.imp fun _ hl => hl.1
  | error e =>
    obtain ⟨t, holders, hl⟩ := hx.events_stuck
    exact ⟨_, hl⟩

end Tagging

end Sandbox
