import Sandbox.Proofs.Memory.Triple

/-! # Edits of memory

Walks change memory in three ways: they write an entry, attach a fresh array to an
entry, or detach an empty array from the entry that points at it.
-/

namespace Sandbox

theorem PhysicalAddress.compare_ne_eq {a b : PhysicalAddress} (h : a ≠ b) : compare a b ≠ .eq :=
  fun hc => h (Std.LawfulEqOrd.eq_of_compare hc)

namespace EntryArray

theorem get_put (t : EntryArray) (i j : Fin 512) (w : Word) :
    (t.put i w).get j = if j = i then w else t.get j := by
  have hget (t : EntryArray) (i : Fin 512) : t.get i = t[i.val] := rfl
  rw [put, hget, hget, Vector.getElem_set]
  simp only [Fin.ext_iff, eq_comm]

@[simp] theorem get_zero (i : Fin 512) : zero.get i = 0 :=
  Vector.getElem_replicate i.isLt

theorem ext {t u : EntryArray} (h : ∀ i, t.get i = u.get i) : t = u :=
  Vector.ext fun i hi => h ⟨i, hi⟩

theorem isEmpty_iff (c : EntryCodec) (t : EntryArray) :
    t.isEmpty c = true ↔ ∀ i, c.isValid (t.get i) = false := by
  simp only [isEmpty, Vector.all_eq_true, Bool.not_eq_true']
  exact ⟨fun h i => h i.val i.isLt, fun h i hi => h ⟨i, hi⟩⟩

end EntryArray

namespace Memory

variable {m : Memory} {a b : PhysicalAddress} {i j : Fin 512} {w : Word}

def attach (m : Memory) (a : PhysicalAddress) (i : Fin 512) (w : Word) : Memory :=
  m.handOut.setEntry a i w

/-- Clear the entry that points at an array, and give the array back. -/
def detach (m : Memory) (a : PhysicalAddress) (i : Fin 512) (b : PhysicalAddress) : Memory :=
  (m.setEntry a i 0).giveBack b

theorem entry_setEntry (ha : a ∈ m.arrays) :
    (m.setEntry a i w).entry b j = if b = a ∧ j = i then w else m.entry b j := by
  unfold entry array setEntry
  rw [Std.ExtTreeMap.getD_modify]
  by_cases hb : b = a
  · subst hb
    obtain ⟨t, ht⟩ := Option.isSome_iff_exists.mp (Std.ExtTreeMap.isSome_getElem?_iff_mem.mpr ha)
    simp [ht, EntryArray.get_put, Std.ExtTreeMap.getD_eq_getD_getElem?]
  · simp [hb, PhysicalAddress.compare_ne_eq (Ne.symm hb)]

theorem entry_setEntry_of_not_mem (ha : a ∉ m.arrays) :
    (m.setEntry a i w).entry b j = m.entry b j := by
  unfold entry array setEntry
  rw [Std.ExtTreeMap.getD_modify]
  by_cases hb : b = a
  · subst hb
    have hn : m.arrays[b]? = none := Std.ExtTreeMap.getElem?_eq_none ha
    simp [hn, Std.ExtTreeMap.getD_eq_getD_getElem?]
  · simp [PhysicalAddress.compare_ne_eq (Ne.symm hb)]

theorem entry_setEntry_of_ne (h : ¬ (b = a ∧ j = i)) :
    (m.setEntry a i w).entry b j = m.entry b j := by
  by_cases ha : a ∈ m.arrays
  · rw [entry_setEntry ha, if_neg h]
  · exact entry_setEntry_of_not_mem ha

@[simp] theorem mem_arrays_setEntry : b ∈ (m.setEntry a i w).arrays ↔ b ∈ m.arrays := by
  simp [setEntry, Std.ExtTreeMap.mem_modify]

@[simp] theorem live_setEntry : (m.setEntry a i w).live = m.live := rfl
@[simp] theorem pool_setEntry : (m.setEntry a i w).pool = m.pool := rfl
@[simp] theorem fresh_setEntry : (m.setEntry a i w).fresh = m.fresh := rfl
@[simp] theorem place_setEntry : (m.setEntry a i w).place = m.place := rfl

theorem entry_handOut : m.handOut.entry b j = if b = m.nextArray then 0 else m.entry b j := by
  unfold entry array handOut
  rw [Std.ExtTreeMap.getD_insert]
  by_cases hb : b = m.nextArray
  · simp [hb]
  · simp [hb, PhysicalAddress.compare_ne_eq (Ne.symm hb)]

theorem mem_live_handOut : b ∈ m.handOut.live ↔ b = m.nextArray ∨ b ∈ m.live := by
  unfold handOut
  rw [Std.ExtTreeSet.mem_insert, Std.compare_eq_iff_eq, eq_comm]

theorem mem_arrays_handOut : b ∈ m.handOut.arrays ↔ b = m.nextArray ∨ b ∈ m.arrays := by
  unfold handOut
  rw [Std.ExtTreeMap.mem_insert, Std.compare_eq_iff_eq, eq_comm]

@[simp] theorem pool_handOut : m.handOut.pool = m.pool.tail := rfl
@[simp] theorem place_handOut : m.handOut.place = m.place := rfl

theorem fresh_le_handOut (m : Memory) : m.fresh ≤ m.handOut.fresh := by
  unfold handOut
  dsimp only
  split <;> omega

theorem before_handOut (m : Memory) : m.Before m.handOut := ⟨m.fresh_le_handOut, rfl⟩

theorem before_setEntry (m : Memory) (a : PhysicalAddress) (i : Fin 512) (w : Word) :
    m.Before (m.setEntry a i w) := .refl _

theorem before_giveBack (m : Memory) (a : PhysicalAddress) : m.Before (m.giveBack a) := .refl _

@[simp] theorem entry_giveBack : (m.giveBack a).entry b j = m.entry b j := rfl

theorem mem_live_giveBack : b ∈ (m.giveBack a).live ↔ b ≠ a ∧ b ∈ m.live := by
  unfold giveBack
  rw [Std.ExtTreeSet.mem_erase, ne_eq, Std.compare_eq_iff_eq, ne_eq, eq_comm]

@[simp] theorem arrays_giveBack : (m.giveBack a).arrays = m.arrays := rfl
@[simp] theorem pool_giveBack : (m.giveBack a).pool = a :: m.pool := rfl
@[simp] theorem fresh_giveBack : (m.giveBack a).fresh = m.fresh := rfl
@[simp] theorem place_giveBack : (m.giveBack a).place = m.place := rfl

theorem entry_attach (ha : a ∈ m.arrays) :
    (m.attach a i w).entry b j =
      if b = a ∧ j = i then w else if b = m.nextArray then 0 else m.entry b j := by
  rw [attach, entry_setEntry (mem_arrays_handOut.mpr (Or.inr ha)), entry_handOut]

theorem entry_detach (ha : a ∈ m.arrays) {d : PhysicalAddress} :
    (m.detach a i d).entry b j = if b = a ∧ j = i then 0 else m.entry b j := by
  rw [detach, entry_giveBack, entry_setEntry ha]

theorem mem_live_attach : b ∈ (m.attach a i w).live ↔ b = m.nextArray ∨ b ∈ m.live := by
  rw [attach, live_setEntry, mem_live_handOut]

theorem mem_live_detach {d : PhysicalAddress} :
    b ∈ (m.detach a i d).live ↔ b ≠ d ∧ b ∈ m.live := by
  rw [detach, mem_live_giveBack, live_setEntry]

@[simp] theorem allocations_setEntry : (m.setEntry a i w).allocations = m.allocations := rfl
@[simp] theorem frees_setEntry : (m.setEntry a i w).frees = m.frees := rfl
@[simp] theorem allocations_attach : (m.attach a i w).allocations = m.allocations + 1 := rfl
@[simp] theorem frees_attach : (m.attach a i w).frees = m.frees := rfl
@[simp] theorem frees_detach : (m.detach a i b).frees = m.frees + 1 := rfl
@[simp] theorem pool_detach : (m.detach a i b).pool = b :: m.pool := rfl

theorem nextArray_cases (m : Memory) :
    (m.pool = [] ∧ m.nextArray = m.place m.fresh ∧ m.handOut.fresh = m.fresh + 1) ∨
      (∃ rest, m.pool = m.nextArray :: rest ∧ m.handOut.fresh = m.fresh) := by
  unfold nextArray handOut
  cases m.pool with
  | nil => exact Or.inl ⟨rfl, rfl, rfl⟩
  | cons b rest => exact Or.inr ⟨rest, rfl, rfl⟩

/-! ## Filling slots -/

structure SameBooks (m m' : Memory) : Prop where
  live : m'.live = m.live
  pool : m'.pool = m.pool
  fresh : m'.fresh = m.fresh
  place : m'.place = m.place
  limit : m'.limit = m.limit
  allocations : m'.allocations = m.allocations
  frees : m'.frees = m.frees
  mem_arrays : ∀ a, a ∈ m'.arrays ↔ a ∈ m.arrays

theorem SameBooks.refl (m : Memory) : SameBooks m m :=
  ⟨rfl, rfl, rfl, rfl, rfl, rfl, rfl, fun _ => Iff.rfl⟩

theorem SameBooks.symm {m' : Memory} (h : SameBooks m m') : SameBooks m' m :=
  ⟨h.live.symm, h.pool.symm, h.fresh.symm, h.place.symm, h.limit.symm, h.allocations.symm,
    h.frees.symm, fun a => (h.mem_arrays a).symm⟩

theorem SameBooks.trans {m₁ m₂ m₃ : Memory} (h : SameBooks m₁ m₂) (h' : SameBooks m₂ m₃) :
    SameBooks m₁ m₃ :=
  ⟨h'.live.trans h.live, h'.pool.trans h.pool, h'.fresh.trans h.fresh, h'.place.trans h.place,
    h'.limit.trans h.limit, h'.allocations.trans h.allocations, h'.frees.trans h.frees,
    fun a => (h'.mem_arrays a).trans (h.mem_arrays a)⟩

theorem sameBooks_setEntry (m : Memory) (a : PhysicalAddress) (i : Fin 512) (w : Word) :
    SameBooks m (m.setEntry a i w) :=
  ⟨rfl, rfl, rfl, rfl, rfl, rfl, rfl, fun _ => mem_arrays_setEntry⟩

theorem SameBooks.before {m' : Memory} (h : SameBooks m m') : m.Before m' :=
  ⟨Nat.le_of_eq h.fresh.symm, h.place⟩

theorem SameBooks.eq {m' : Memory} (h : SameBooks m m')
    (hentry : ∀ a i, m'.entry a i = m.entry a i) : m' = m := by
  have harrays : m'.arrays = m.arrays := by
    apply Std.ExtTreeMap.ext_getElem?
    intro a
    by_cases ha : a ∈ m.arrays
    · have ha' := (h.mem_arrays a).mpr ha
      have hsame : m'.array a = m.array a := EntryArray.ext (hentry a)
      rw [array, array, Std.ExtTreeMap.getD_eq_getD_getElem?, Std.ExtTreeMap.getD_eq_getD_getElem?,
        Std.ExtTreeMap.getElem?_eq_some_getElem ha, Std.ExtTreeMap.getElem?_eq_some_getElem ha',
        Option.getD_some, Option.getD_some] at hsame
      rw [Std.ExtTreeMap.getElem?_eq_some_getElem ha, Std.ExtTreeMap.getElem?_eq_some_getElem ha',
        hsame]
    · rw [Std.ExtTreeMap.getElem?_eq_none ha,
        Std.ExtTreeMap.getElem?_eq_none fun ha' => ha ((h.mem_arrays a).mp ha')]
  cases m
  cases m'
  simp only [mk.injEq]
  exact ⟨harrays, h.live, h.pool, h.limit, h.allocations, h.frees, h.fresh, h.place⟩

theorem setEntry_of_not_mem (ha : a ∉ m.arrays) : m.setEntry a i w = m :=
  (m.sameBooks_setEntry a i w).eq fun _ _ => entry_setEntry_of_not_mem ha

theorem setEntry_entry (m : Memory) (a : PhysicalAddress) (i : Fin 512) :
    m.setEntry a i (m.entry a i) = m := by
  by_cases ha : a ∈ m.arrays
  · refine (m.sameBooks_setEntry a i _).eq fun b j => ?_
    rw [entry_setEntry ha]
    split
    · next h => rw [h.1, h.2]
    · rfl
  · exact setEntry_of_not_mem ha

section Fill

variable {g : Memory → Fin 512 → Word}

theorem sameBooks_fill (l : List (Fin 512)) (m : Memory) :
    SameBooks m (l.foldl (fun m i => m.setEntry a i (g m i)) m) := by
  induction l generalizing m with
  | nil => exact .refl m
  | cons i l ih => exact (m.sameBooks_setEntry a i (g m i)).trans (ih _)

theorem entry_fill_of_not_mem {l : List (Fin 512)} (h : ¬ (b = a ∧ j ∈ l)) :
    (l.foldl (fun m i => m.setEntry a i (g m i)) m).entry b j = m.entry b j := by
  induction l generalizing m with
  | nil => rfl
  | cons i l ih =>
    rw [List.foldl_cons, ih fun hc => h ⟨hc.1, List.mem_cons_of_mem i hc.2⟩]
    exact entry_setEntry_of_ne fun hc => h ⟨hc.1, hc.2 ▸ List.mem_cons_self⟩

theorem entry_fill_of_mem (hg : ∀ m i w j, g (m.setEntry a i w) j = g m j) (ha : a ∈ m.arrays)
    {l : List (Fin 512)} (hj : j ∈ l) :
    (l.foldl (fun m i => m.setEntry a i (g m i)) m).entry a j = g m j := by
  induction l generalizing m with
  | nil => cases hj
  | cons i l ih =>
    rw [List.foldl_cons]
    by_cases hl : j ∈ l
    · rw [ih (mem_arrays_setEntry.mpr ha) hl, hg]
    · obtain rfl := (List.mem_cons.mp hj).resolve_right hl
      rw [entry_fill_of_not_mem fun hc => hl hc.2, entry_setEntry ha, if_pos ⟨rfl, rfl⟩]

theorem mem_drop_finRange {i first : Fin 512} :
    i ∈ (List.finRange 512).drop first ↔ first ≤ i := by
  rw [List.mem_drop_iff_getElem]
  simp only [List.getElem_finRange, List.length_finRange]
  constructor
  · rintro ⟨k, hk, hki⟩
    rw [← hki, Fin.le_def]
    simp
  · intro h
    rw [Fin.le_def] at h
    exact ⟨i.val - first.val, by omega, by ext; simp; omega⟩

theorem entry_fill (hg : ∀ m i w j, g (m.setEntry a i w) j = g m j) (first : Fin 512)
    (ha : a ∈ m.arrays) : (((List.finRange 512).drop first).foldl
      (fun m i => m.setEntry a i (g m i)) m).entry b j =
        if b = a ∧ first ≤ j then g m j else m.entry b j := by
  split
  · next h =>
    obtain ⟨rfl, hj⟩ := h
    exact entry_fill_of_mem hg ha (mem_drop_finRange.mpr hj)
  · next h => exact entry_fill_of_not_mem fun hc => h ⟨hc.1, mem_drop_finRange.mp hc.2⟩

end Fill

/-! ## Books -/

/-- The allocator's books agree with each other: live arrays exist, pooled ones are not
live, and all of them were taken fresh once. -/
structure Books (m : Memory) : Prop where
  present : ∀ a ∈ m.live, a ∈ m.arrays
  pool_nodup : m.pool.Nodup
  pool_not_live : ∀ a ∈ m.pool, a ∉ m.live
  placed : ∀ a, a ∈ m.live ∨ a ∈ m.pool → ∃ n < m.fresh, m.place n = a

namespace Books

theorem congr {m' : Memory} (h : m.Books) (hs : SameBooks m m') : m'.Books where
  present a ha := (hs.mem_arrays a).mpr (h.present a (hs.live ▸ ha))
  pool_nodup := hs.pool ▸ h.pool_nodup
  pool_not_live a ha := by
    rw [hs.live]
    exact h.pool_not_live a (hs.pool ▸ ha)
  placed a ha := by
    rw [hs.live, hs.pool] at ha
    rw [hs.fresh, hs.place]
    exact h.placed a ha

/-- The array that is handed out next is in nobody's use, aligned, and fits the codec. -/
theorem nextArray_spec {c : EntryCodec} (h : m.Books) (hp : m.handOut.Placed c) :
    m.nextArray ∉ m.live ∧ m.nextArray.isPageAligned = true ∧ c.Fits m.nextArray := by
  rcases m.nextArray_cases with ⟨-, hnext, hfresh⟩ | ⟨rest, hpool, hfresh⟩
  · have hn := hp m.fresh (by omega)
    rw [place_handOut] at hn
    rw [hnext]
    refine ⟨fun hl => ?_, hn.1, hn.2.1⟩
    obtain ⟨k, hk, hka⟩ := h.placed _ (Or.inl hl)
    exact hn.2.2 k hk hka
  · have hmem : m.nextArray ∈ m.pool := by rw [hpool]; exact List.mem_cons_self
    obtain ⟨n, hn, hna⟩ := h.placed _ (Or.inr hmem)
    have hn' := hp n (by omega)
    rw [place_handOut, hna] at hn'
    exact ⟨h.pool_not_live _ hmem, hn'.1, hn'.2.1⟩

theorem handOut (h : m.Books) : m.handOut.Books where
  present a ha := by
    rw [mem_live_handOut] at ha
    exact mem_arrays_handOut.mpr (ha.imp id (h.present a))
  pool_nodup := h.pool_nodup.tail
  pool_not_live a ha := by
    rw [pool_handOut] at ha
    rw [mem_live_handOut]
    rintro (rfl | hl)
    · rcases m.nextArray_cases with ⟨hpool, -⟩ | ⟨rest, hpool, -⟩
      · simp [hpool] at ha
      · have hnd := h.pool_nodup
        rw [hpool, List.tail_cons] at ha
        rw [hpool, List.nodup_cons] at hnd
        exact hnd.1 ha
    · exact h.pool_not_live a (List.mem_of_mem_tail ha) hl
  placed a ha := by
    have hle := m.fresh_le_handOut
    have hold : a ∈ m.live ∨ a ∈ m.pool → ∃ n < m.handOut.fresh, m.place n = a := by
      intro ha
      obtain ⟨n, hn, hna⟩ := h.placed a ha
      exact ⟨n, by omega, hna⟩
    rw [mem_live_handOut] at ha
    rcases ha with (rfl | hl) | hpl
    · rcases m.nextArray_cases with ⟨-, hnext, hfresh⟩ | ⟨rest, hpool, -⟩
      · exact ⟨m.fresh, by omega, hnext.symm⟩
      · exact hold (Or.inr (by rw [hpool]; exact List.mem_cons_self))
    · exact hold (Or.inl hl)
    · exact hold (Or.inr (List.mem_of_mem_tail hpl))

theorem giveBack (h : m.Books) (hb : b ∈ m.live) : (m.giveBack b).Books where
  present a ha := h.present a (mem_live_giveBack.mp ha).2
  pool_nodup := List.nodup_cons.mpr ⟨fun hp => h.pool_not_live b hp hb, h.pool_nodup⟩
  pool_not_live a ha := by
    rw [mem_live_giveBack]
    rintro ⟨hne, hl⟩
    rcases List.mem_cons.mp ha with rfl | ha
    · exact hne rfl
    · exact h.pool_not_live a ha hl
  placed a ha := by
    rw [mem_live_giveBack] at ha
    apply h.placed a
    rcases ha with ⟨-, hl⟩ | hpl
    · exact Or.inl hl
    · rcases List.mem_cons.mp hpl with rfl | hpl
      · exact Or.inl hb
      · exact Or.inr hpl

end Books

theorem allocate?_run_full (h : m.limitReached = true) (log : Array LogRecord) :
    Memory.allocate? ⟨m, log⟩ = .ok none ⟨m, log.push (.limitReached m.liveCount)⟩ := by
  have hread : (Action.read : Action Memory Memory) ⟨m, log⟩ = .ok m ⟨m, log⟩ := rfl
  unfold allocate?
  rw [Action.bind_run hread, if_pos h]
  rfl

theorem allocate?_run (h : m.limitReached = false) (log : Array LogRecord) :
    Memory.allocate? ⟨m, log⟩ = .ok (some m.nextArray) ⟨m.handOut, log⟩ := by
  have hread : (Action.read : Action Memory Memory) ⟨m, log⟩ = .ok m ⟨m, log⟩ := rfl
  unfold allocate?
  rw [Action.bind_run hread, if_neg (by rw [h]; exact Bool.false_ne_true)]
  rfl

theorem allocate_run_full (h : m.limitReached = true) (log : Array LogRecord) :
    Memory.allocate ⟨m, log⟩ =
      .error (.refusal .outOfMemory) ⟨m, log.push (.limitReached m.liveCount)⟩ := by
  unfold allocate
  rw [Action.bind_run (allocate?_run_full h log)]
  rfl

theorem allocate_run (h : m.limitReached = false) (log : Array LogRecord) :
    Memory.allocate ⟨m, log⟩ = .ok m.nextArray ⟨m.handOut, log⟩ := by
  unfold allocate
  rw [Action.bind_run (allocate?_run h log)]
  rfl

end Memory

namespace Triple

/-! ## Operations -/

variable {c : EntryCodec} {P : Memory → Prop} {E : Stop → Memory → Prop}
  {a : PhysicalAddress} {i : Fin 512} {w : Word}

theorem load : Triple c P (Memory.load a i) (fun w m => w = m.entry a i ∧ P m) E := by
  apply bind read
  rintro m'
  apply pure
  rintro m ⟨rfl, hp⟩
  exact ⟨rfl, hp⟩

theorem store {Q : Unit → Memory → Prop} (h : ∀ m, P m → Q () (m.setEntry a i w)) :
    Triple c P (Memory.store a i w) Q E :=
  update (fun m => m.before_setEntry a i w) fun m _ hp => h m hp

theorem resolve (h : ∀ m, P m → a ∈ m.live) :
    Triple c P (Memory.resolve a) (fun b m => b = a ∧ P m) E := by
  apply bind read
  rintro m'
  apply ite
  · exact fun _ => pure fun m hp => ⟨rfl, hp.2⟩
  · intro hn
    have hfalse : ∀ m : Memory, m' = m ∧ P m → False := by
      rintro m ⟨rfl, hp⟩
      exact hn (Std.ExtTreeSet.mem_iff_contains.mp (h _ hp))
    exact ite (fun _ => throw fun m hp => (hfalse m hp).elim)
      fun _ => throw fun m hp => (hfalse m hp).elim

theorem allocate (hfull : ∀ m, P m → m.limitReached = true → E (.refusal .outOfMemory) m) :
    Triple c P Memory.allocate (fun b m' => ∃ m, P m ∧ m.limitReached = false ∧
      b = m.nextArray ∧ m' = m.handOut ∧ m.handOut.Placed c) E := by
  apply bind (Q := fun x m' => x.elim (P m' ∧ m'.limitReached = true) fun b =>
    ∃ m, P m ∧ m.limitReached = false ∧ b = m.nextArray ∧ m' = m.handOut ∧ m.handOut.Placed c)
  · apply bind read
    rintro m'
    apply ite
    · intro hlimit
      refine bind log fun _ => pure ?_
      rintro m ⟨rfl, hp⟩
      exact ⟨hp, hlimit⟩
    · intro hroom
      refine bind (Q := fun _ m => m = m'.handOut ∧ P m' ∧ m'.handOut.Placed c) ?_ ?_
      · apply update Memory.before_handOut
        rintro m hm ⟨rfl, hp⟩
        exact ⟨rfl, hp, hm⟩
      · rintro -
        apply pure
        rintro m ⟨rfl, hp, hm⟩
        exact ⟨m', hp, Bool.eq_false_iff.mpr hroom, rfl, rfl, hm⟩
  · rintro (_ | b)
    · exact throw fun m hm => hfull m hm.1 hm.2
    · exact pure fun m hm => hm

theorem free {Q : Unit → Memory → Prop} (hl : ∀ m, P m → a ∈ m.live)
    (h : ∀ m, P m → Q () (m.giveBack a)) : Triple c P (Memory.free a) Q E := by
  apply bind read
  rintro m'
  apply ite
  · exact fun _ => update (fun m => m.before_giveBack a) fun m _ hp => h m hp.2
  · intro hn
    apply throw
    rintro m ⟨rfl, hp⟩
    exact absurd (Std.ExtTreeSet.mem_iff_contains.mp (hl _ hp)) hn

end Triple

end Sandbox
