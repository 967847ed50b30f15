import Sandbox.Proofs.Tag.Sound

/-! # Flushes in a trace

The flushes of a tag on all CPUs are counted from the start of a trace up to any position,
so that two positions differ in their counts when the tag was flushed between them.
-/

namespace Sandbox

def Event.flushes (t : Asid) : Event → Bool
  | .flush .everywhere t' _ => t' == t
  | _ => false

theorem Event.flushes_iff {t : Asid} {e : Event} :
    e.flushes t = true ↔ ∃ holders, e = .flush .everywhere t holders := by
  constructor
  · intro h
    unfold flushes at h
    split at h
    · exact ⟨_, by rw [beq_iff_eq.mp h]⟩
    · cases h
  · rintro ⟨holders, rfl⟩
    exact beq_self_eq_true t

theorem countP_take_lt_iff {α : Type} {l : List α} {p : α → Bool} {i j : Nat} :
    (l.take i).countP p < (l.take j).countP p ↔
      ∃ k, i ≤ k ∧ k < j ∧ ∃ x, l[k]? = some x ∧ p x = true := by
  rcases Nat.le_total i j with hij | hji
  · have htake : l.take j = l.take i ++ (l.take j).drop i := by
      conv_lhs => rw [← List.take_append_drop i (l.take j)]
      rw [List.take_take, Nat.min_eq_left hij]
    have hcount : (l.take j).countP p = (l.take i).countP p + ((l.take j).drop i).countP p := by
      conv_lhs => rw [htake]
      exact List.countP_append
    rw [hcount, Nat.lt_add_right_iff_pos, List.countP_pos_iff]
    constructor
    · rintro ⟨x, hx, hp⟩
      obtain ⟨m, hm⟩ := List.getElem?_of_mem hx
      rw [List.getElem?_drop, List.getElem?_take] at hm
      split at hm
      · next hlt => exact ⟨i + m, Nat.le_add_right i m, hlt, x, hm, hp⟩
      · cases hm
    · rintro ⟨k, hi, hj, x, hk, hp⟩
      refine ⟨x, List.mem_of_getElem? (i := k - i) ?_, hp⟩
      rw [List.getElem?_drop, Nat.add_sub_cancel' hi, List.getElem?_take, if_pos hj, hk]
  · constructor
    · intro h
      have hle := (List.take_sublist_take_left (l := l) hji).countP_le (p := p)
      omega
    · rintro ⟨k, hi, hj, -⟩
      omega

namespace Trace

variable {tr tr' : Trace} {t : Asid} {i j n : Nat} {l : List Event}

def flushes (tr : Trace) (t : Asid) : Nat :=
  tr.events.countP (Event.flushes t)

def flushesBefore (tr : Trace) (n : Nat) (t : Asid) : Nat :=
  (tr.events.toList.take n).countP (Event.flushes t)

/-- The tag was flushed on all CPUs at one of the positions from `i` up to `j`. -/
def FlushedIn (tr : Trace) (t : Asid) (i j : Nat) : Prop :=
  ∃ k, i ≤ k ∧ k < j ∧ ∃ holders, tr.events[k]? = some (.flush .everywhere t holders)

theorem flushedIn_iff : tr.FlushedIn t i j ↔ tr.flushesBefore i t < tr.flushesBefore j t := by
  unfold FlushedIn flushesBefore
  rw [countP_take_lt_iff]
  simp only [Event.flushes_iff, Array.getElem?_toList]
  constructor
  · rintro ⟨k, hi, hj, holders, hk⟩
    exact ⟨k, hi, hj, _, hk, holders, rfl⟩
  · rintro ⟨k, hi, hj, _, hk, holders, rfl⟩
    exact ⟨k, hi, hj, holders, hk⟩

theorem flushesBefore_size : tr.flushesBefore tr.events.size t = tr.flushes t := by
  rw [flushesBefore, flushes, ← Array.length_toList, List.take_length, Array.countP_toList]

theorem flushesBefore_mono (h : i ≤ j) : tr.flushesBefore i t ≤ tr.flushesBefore j t :=
  (List.take_sublist_take_left h).countP_le

theorem flushesBefore_le : tr.flushesBefore i t ≤ tr.flushes t := by
  rw [flushes, ← Array.countP_toList]
  exact (List.take_sublist i _).countP_le

theorem flushesBefore_of_append (h : tr'.events.toList = tr.events.toList ++ l)
    (hn : n ≤ tr.events.size) : tr'.flushesBefore n t = tr.flushesBefore n t := by
  rw [flushesBefore, h, List.take_append_of_le_length (by rwa [Array.length_toList]), flushesBefore]

theorem flushes_of_append (h : tr'.events.toList = tr.events.toList ++ l) :
    tr'.flushes t = tr.flushes t + l.countP (Event.flushes t) := by
  rw [flushes, ← Array.countP_toList, h, List.countP_append, Array.countP_toList, flushes]

theorem flushes_of_quiet (h : tr'.events.toList = tr.events.toList ++ l)
    (hquiet : ∀ e ∈ l, ∀ t, e.flushes t = false) : tr'.flushes t = tr.flushes t := by
  rw [flushes_of_append h, List.countP_eq_zero.mpr, Nat.add_zero]
  exact fun e he => Bool.eq_false_iff.mp (hquiet e he t)

theorem flushes_push (tr : Trace) (e : Event) (t : Asid) :
    ({ tr with events := tr.events.push e } : Trace).flushes t =
      tr.flushes t + (Event.flushes t e).toNat := by
  rw [flushes, Array.countP_push, flushes]
  cases Event.flushes t e <;> rfl

end Trace

namespace Tagging

variable {T : List Asid} {x y : Tagging} {i : Nat} {r : TagRecord} {o : OwnerId} {a : Assignment}

theorem flushes_rebound (t : Asid) :
    (x.rebound i r o).trace.flushes t =
      x.trace.flushes t + if r.tag = t then r.dirty.toNat else 0 := by
  unfold rebound
  by_cases hd : r.dirty = true
  · rw [if_pos hd, hd]
    refine (Trace.flushes_push _ _ _).trans ?_
    by_cases ht : r.tag = t
    · simp [cleaning, Event.flushes, ht]
    · simp [cleaning, Event.flushes, ht]
  · rw [if_neg hd, Bool.eq_false_of_not_eq_true hd]
    simp

/-- The pool is sound, and the epoch of a record counts the flushes of its tag. -/
structure Counted (T : List Asid) (x : Tagging) : Prop where
  sound : Sound T x
  epoch : ∀ {i : Nat} {r : TagRecord}, x.pool.records[i]? = some r →
    r.epoch = x.trace.flushes r.tag

namespace Counted

theorem vacated (h : Counted T x) (hi : x.pool.records[i]? = some r) :
    Counted T (x.vacated i r) := by
  refine ⟨h.sound.vacated hi, fun {j q} hj => ?_⟩
  obtain ⟨rfl, rfl⟩ | ⟨-, hj⟩ := set_cases hi hj
  · exact (h.epoch hi : r.epoch = x.trace.flushes r.tag)
  · exact h.epoch hj

theorem renewed (h : Counted T x) (hi : x.pool.records[i]? = some r)
    (ho : r.liveOwner x.owners = some o) : Counted T (x.renewed i r o) := by
  refine ⟨h.sound.renewed hi ho, fun {j q} hj => ?_⟩
  obtain ⟨rfl, rfl⟩ | ⟨-, hj⟩ := set_cases hi hj
  · exact (h.epoch hi : r.epoch = x.trace.flushes r.tag)
  · exact h.epoch hj

theorem rebound (h : Counted T x) (hi : x.pool.records[i]? = some r)
    (ho : x.owners.tag? o = some 0) : Counted T (x.rebound i r o) := by
  refine ⟨h.sound.rebound hi ho, fun {j q} hj => ?_⟩
  rw [flushes_rebound]
  obtain ⟨rfl, rfl⟩ | ⟨hij, hj⟩ := set_cases hi hj
  · rw [if_pos rfl, h.epoch hi]
  · rw [if_neg fun ht => hij (h.sound.agreement.index_eq hi hj ht), Nat.add_zero, h.epoch hj]

/-- An assignment that returns reports how often its tag was flushed. -/
theorem assigned (h : Counted T x) (hx : Assigns x o (.ok a) y) :
    Counted T y ∧ a.epoch = y.trace.flushes a.tag := by
  cases hx with
  | held hi ho => exact ⟨h.renewed hi ho, h.epoch hi⟩
  | given hi ho =>
    refine ⟨h.rebound hi ho, ?_⟩
    rw [flushes_rebound, if_pos rfl, h.epoch hi]

end Counted

end Tagging

end Sandbox
