import Sandbox.Proofs.Space.Change

/-! # Creation of a space

A new space owns nothing but its root. What it shares is copied into the root, so that the
pages above the split are seen at once.
-/

namespace Sandbox

open AddressSpace

variable {A : Architecture} {S : List (AddressSpace A)} {s t base : AddressSpace A}
  {m m₀ m' : Memory} {p : List (Fin 512)} {a : PhysicalAddress}

/-- The memory after a space was given a root of its own, filled with what it shares. -/
structure Born (S : List (AddressSpace A)) (m : Memory) (s : AddressSpace A) (m' : Memory) :
    Prop where
  books : m'.Books
  live : ∀ b, b ∈ m'.live ↔ b = s.root ∨ b ∈ m.live
  not_live : s.root ∉ m.live
  same : ∀ b ∈ m.live, ∀ j, m'.entry b j = m.entry b j
  own : ∀ j, s.OwnsSlot j → m'.entry s.root j = 0
  shared : ∀ u, s.upper = some u → ∃ b ∈ S, b.owner = u.owner ∧
    ∀ j, ¬ s.OwnsSlot j → m'.entry s.root j = m.entry b.root j
  split : s.WellSplit
  newest : ∀ t ∈ S, t.owner.number < s.owner.number

namespace Born

theorem untouched (hb : Born S m s m') (h : Intact S m) (ht : t ∈ S) : t.Untouched m m' :=
  fun _ c hp hc => hb.same c (h.mem_live_of_arrayAt ht hp hc)

theorem arrayAt_none (hb : Born S m s m') (hown : s.OwnsPath p) (hp : p ≠ []) :
    s.arrayAt m' p = none := by
  obtain ⟨q, i, rfl⟩ := (List.eq_nil_or_concat p).resolve_left hp
  rw [List.concat_eq_append] at hown ⊢
  apply arrayAt_none_of_suffix (q := [i]) _ (List.suffix_append q [i])
  have hslot : s.OwnsSlot i := hown i (by simp)
  rw [arrayAt_cons, arrayAt_nil, Option.bind_some, hb.own i hslot, A.lawful.child?_zero]

theorem owns_iff (hb : Born S m s m') : s.Owns m' p a ↔ p = [] ∧ a = s.root := by
  constructor
  · rintro ⟨hown, -, harr⟩
    by_cases hp : p = []
    · subst hp
      exact ⟨rfl, (Option.some.inj harr).symm⟩
    · rw [hb.arrayAt_none hown hp] at harr
      cases harr
  · rintro ⟨rfl, rfl⟩
    exact Intact.root_owns s m'

theorem intact (hb : Born S m s m') (h : Intact S m) : Intact (s :: S) m' := by
  have hroot (t : AddressSpace A) (ht : t ∈ S) : t.root ∈ m.live :=
    h.mem_live ht (Intact.root_owns t m)
  have hnew {t : AddressSpace A} {p a} (ht : t ∈ S) (ho : t.Owns m' p a) : a ≠ s.root := by
    rintro rfl
    exact hb.not_live (h.mem_live ht ((hb.untouched h ht).owns_iff.mp ho))
  constructor
  case owner_inj =>
    intro t ht r hr heq
    rcases List.mem_cons.mp ht with rfl | htS <;> rcases List.mem_cons.mp hr with rfl | hrS
    · rfl
    · exact absurd (hb.newest r hrS) (by rw [heq]; exact Nat.lt_irrefl _)
    · exact absurd (hb.newest t htS) (by rw [heq]; exact Nat.lt_irrefl _)
    · exact h.owner_inj t htS r hrS heq
  case split =>
    intro t ht
    rcases List.mem_cons.mp ht with rfl | ht
    · exact hb.split
    · exact h.split t ht
  case base =>
    intro t ht u hu
    rcases List.mem_cons.mp ht with rfl | ht
    · obtain ⟨b, hbS, hbu, hcopy⟩ := hb.shared u hu
      refine ⟨b, List.mem_cons_of_mem _ hbS, hbu, hb.newest b hbS, fun j hj => ?_⟩
      rw [hcopy j hj, hb.same b.root (hroot b hbS)]
    · obtain ⟨b, hbS, hbu, hlt, hcopy⟩ := h.base t ht u hu
      refine ⟨b, List.mem_cons_of_mem _ hbS, hbu, hlt, fun j hj => ?_⟩
      rw [hb.same t.root (hroot t ht), hb.same b.root (hroot b hbS), hcopy j hj]
  case live_iff =>
    intro a
    rw [hb.live, h.live_iff]
    constructor
    · rintro (rfl | ⟨t, ht, q, ho⟩)
      · exact ⟨s, List.mem_cons_self, [], hb.owns_iff.mpr ⟨rfl, rfl⟩⟩
      · exact ⟨t, List.mem_cons_of_mem _ ht, q, (hb.untouched h ht).owns_iff.mpr ho⟩
    · rintro ⟨t, ht, q, ho⟩
      rcases List.mem_cons.mp ht with rfl | ht
      · exact Or.inl (hb.owns_iff.mp ho).2
      · exact Or.inr ⟨t, ht, q, (hb.untouched h ht).owns_iff.mp ho⟩
  case unique =>
    intro t ht r hr p q a ho ho'
    rcases List.mem_cons.mp ht with rfl | htS <;> rcases List.mem_cons.mp hr with rfl | hrS
    · exact ⟨rfl, by rw [(hb.owns_iff.mp ho).1, (hb.owns_iff.mp ho').1]⟩
    · exact absurd (hb.owns_iff.mp ho).2 (hnew hrS ho')
    · exact absurd (hb.owns_iff.mp ho').2 (hnew htS ho)
    · exact h.unique t htS r hrS p q a ((hb.untouched h htS).owns_iff.mp ho)
        ((hb.untouched h hrS).owns_iff.mp ho')
  case pointers =>
    intro t ht p a ho hp i
    rcases List.mem_cons.mp ht with rfl | ht
    · obtain ⟨rfl, rfl⟩ := hb.owns_iff.mp ho
      by_cases hi : t.OwnsSlot i
      · exact Or.inl (hb.own i hi)
      · obtain ⟨u, hu⟩ := exists_upper hi
        obtain ⟨b, hbS, -, hcopy⟩ := hb.shared u hu
        rw [hcopy i hi]
        exact h.pointers b hbS [] b.root (Intact.root_owns b m) (by simp) i
    · have hm := (hb.untouched h ht).owns_iff.mp ho
      rw [hb.same a (h.mem_live ht hm)]
      exact h.pointers t ht p a hm hp i
  case leaves =>
    intro t ht p a ho hp i
    rcases List.mem_cons.mp ht with rfl | ht
    · obtain ⟨rfl, rfl⟩ := hb.owns_iff.mp ho
      cases hp
    · have hm := (hb.untouched h ht).owns_iff.mp ho
      rw [hb.same a (h.mem_live ht hm)]
      exact h.leaves t ht p a hm hp i
  case books => exact hb.books

/-! ## Pages of the new space -/

theorem leafAt_own (hb : Born S m s m') {y : Word} (hi : s.OwnsSlot (Level.pgd.index y)) :
    s.leafAt m' y = 0 := by
  unfold leafAt
  rw [hb.arrayAt_none _ (by simp [Level.path])]
  intro i hi'
  exact Option.some.inj hi' ▸ hi

/-- Below the split the new space is empty, and above it shows what it shares. -/
theorem leafAt_new (hb : Born S m s m') (h : Intact S m) (y : Word) :
    s.leafAt m' y = 0 ∨ ∃ t ∈ S, s.leafAt m' y = t.leafAt m y := by
  by_cases hi : s.OwnsSlot (Level.pgd.index y)
  · exact Or.inl (hb.leafAt_own hi)
  · obtain ⟨u, hu⟩ := exists_upper hi
    obtain ⟨b, hbS, -, hcopy⟩ := hb.shared u hu
    have heq : m'.entry s.root (Level.pgd.index y) = m'.entry b.root (Level.pgd.index y) := by
      rw [hcopy _ hi, hb.same b.root (h.mem_live hbS (Intact.root_owns b m))]
    refine Or.inr ⟨b, hbS, ?_⟩
    rw [← (hb.untouched h hbS).leafAt_eq y, leafAt_congr_root heq]

end Born

namespace AddressSpace

theorem rootSlot_eq_ok_iff {x : Word} {i : Fin 512} : rootSlot x = .ok i ↔
    x.toNat % 2 ^ 39 = 0 ∧ Canonical.isCanonical x = true ∧ i = Level.pgd.index x := by
  have haligned : x % Level.pgd.size = 0 ↔ x.toNat % 2 ^ 39 = 0 := by
    rw [← BitVec.toNat_inj, BitVec.toNat_umod, Level.size_toNat]
    rfl
  rw [rootSlot, require_bind_eq_ok_iff, require_bind_eq_ok_iff, haligned, Level.maskedIndex_eq,
    eq_comm (a := i)]
  simp only [pure, Except.pure, Except.ok.injEq]

theorem rootSlot_eq_error {x : Word} {e : Abort} (h : rootSlot x = .error e) : ¬ e.Broken := by
  unfold rootSlot require at h
  split at h
  · split at h
    · cases h
    · cases h; exact id
  · cases h; exact id

theorem wellSplit_of_create {owner : OwnerId} (h : (create A owner).outcome m = .ok s) :
    s.WellSplit := by
  obtain ⟨t, h⟩ := Action.outcome_eq_ok.mp h
  obtain ⟨root, t₁, -, h⟩ := Action.ok_of_bind h
  obtain ⟨-, t₂, -, h⟩ := Action.ok_of_bind h
  cases h
  exact nofun

theorem createAbove_eq_ok {start : VirtualAddress} {owner : OwnerId}
    (h : (base.createAbove start owner).outcome m = .ok s) :
    s.upper = some ⟨base.owner, start.word⟩ ∧ start.word.toNat % 2 ^ 39 = 0 ∧
      Canonical.isCanonical start.word = true := by
  unfold createAbove at h
  cases hslot : rootSlot start.word with
  | error e =>
    rw [hslot, Action.lift_error_bind] at h
    cases h
  | ok first =>
    rw [hslot, Action.lift_ok_bind] at h
    obtain ⟨haligned, hcanonical, -⟩ := rootSlot_eq_ok_iff.mp hslot
    obtain ⟨t, h⟩ := Action.outcome_eq_ok.mp h
    obtain ⟨root, t₁, -, h⟩ := Action.ok_of_bind h
    obtain ⟨-, t₂, -, h⟩ := Action.ok_of_bind h
    obtain ⟨-, t₃, -, h⟩ := Action.ok_of_bind h
    cases h
    exact ⟨rfl, haligned, hcanonical⟩

/-- The action makes a space with the next array as its root, unless the limit is reached. -/
structure Spawns (act : Action Memory (AddressSpace A)) (m : Memory) (owner : OwnerId)
    (upper : Option SharedUpper) : Prop where
  full : m.limitReached = true →
    act.outcome m = .error (.refusal .outOfMemory) ∧ act.final m = m
  room : m.limitReached = false →
    act.outcome m = .ok ⟨owner, m.nextArray, upper, false⟩ ∧ m.handOut.SameBooks (act.final m)

theorem spawns_create (A : Architecture) (owner : OwnerId) (m : Memory) :
    Spawns (create A owner) m owner none := by
  constructor
  · intro hfull
    unfold create Action.outcome Action.final
    rw [Action.bind_run_error (Memory.allocate_run_full hfull _)]
    exact ⟨rfl, rfl⟩
  · intro hroom
    unfold create Action.outcome Action.final
    rw [Action.bind_run (Memory.allocate_run hroom _)]
    exact ⟨rfl, .refl _⟩

theorem spawns_createAbove {start : VirtualAddress} {first : Fin 512}
    (hslot : rootSlot start.word = .ok first) (base : AddressSpace A) (owner : OwnerId)
    (m : Memory) :
    Spawns (base.createAbove start owner) m owner (some ⟨base.owner, start.word⟩) := by
  constructor
  · intro hfull
    unfold createAbove Action.outcome Action.final
    rw [hslot, Action.lift_ok_bind, Action.bind_run_error (Memory.allocate_run_full hfull _)]
    exact ⟨rfl, rfl⟩
  · intro hroom
    unfold createAbove Action.outcome Action.final
    rw [hslot, Action.lift_ok_bind, Action.bind_run (Memory.allocate_run hroom _)]
    exact ⟨rfl, Memory.sameBooks_fill _ m.handOut⟩

theorem createAbove_returns {start : VirtualAddress} (owner : OwnerId)
    (haligned : start.word.toNat % 2 ^ 39 = 0)
    (hcanonical : Canonical.isCanonical start.word = true) (hroom : m.limitReached = false) :
    (base.createAbove start owner).outcome m =
      .ok ⟨owner, m.nextArray, some ⟨base.owner, start.word⟩, false⟩ :=
  ((spawns_createAbove (rootSlot_eq_ok_iff.mpr ⟨haligned, hcanonical, rfl⟩) base owner m).room hroom).1

theorem createAbove_eq_throw {start : VirtualAddress} {e : Abort}
    (hslot : rootSlot start.word = .error e) (base : AddressSpace A) (owner : OwnerId) :
    base.createAbove start owner = throw (.abort e) := by
  unfold createAbove
  rw [hslot, Action.lift_error_bind]

theorem wellSplit_of_createAbove {start : VirtualAddress} {owner : OwnerId}
    (h : (base.createAbove start owner).outcome m = .ok s) : s.WellSplit := by
  obtain ⟨hupper, hstart⟩ := createAbove_eq_ok h
  rintro u hu
  obtain rfl := Option.some.inj (hupper.symm.trans hu)
  exact hstart

def NotMade (m₀ : Memory) (e : Stop) (m : Memory) : Prop :=
  m = m₀ ∧ e.Benign

theorem create_triple {owner : OwnerId} (hnew : ∀ t ∈ S, t.owner.number < owner.number)
    (m₀ : Memory) : Triple A.codec (fun m => m = m₀ ∧ Intact S m) (create A owner)
      (fun s m => s.owner = owner ∧ Born S m₀ s m) (NotMade m₀) := by
  unfold create
  apply Triple.bind (Triple.allocate ?_)
  · intro root
    apply Triple.bind Triple.log
    intro _
    apply Triple.pure
    rintro m' ⟨m, ⟨rfl, h⟩, -, rfl, rfl, hplaced⟩
    obtain ⟨hnot, -, -⟩ := h.books.nextArray_spec hplaced
    refine ⟨rfl, h.books.handOut, fun b => Memory.mem_live_handOut, hnot, ?_, ?_, nofun, nofun,
      hnew⟩
    · intro b hb j
      rw [Memory.entry_handOut, if_neg]
      rintro rfl
      exact hnot hb
    · intro j _
      rw [Memory.entry_handOut, if_pos rfl]
  · rintro m ⟨rfl, -⟩ -
    exact ⟨rfl, Stop.benign_refusal _⟩

/-- The copied slots are those that the new space does not own. -/
theorem born_above (h : Intact S m) (hbase : base ∈ S) {owner : OwnerId}
    (hnew : ∀ t ∈ S, t.owner.number < owner.number) {start : Word}
    (haligned : start.toNat % 2 ^ 39 = 0) (hcanonical : Canonical.isCanonical start = true)
    (hplaced : m.handOut.Placed A.codec) :
    Born S m (⟨owner, m.nextArray, some ⟨base.owner, start⟩, false⟩ : AddressSpace A)
      (((List.finRange 512).drop (Level.pgd.index start)).foldl
        (fun m' i => m'.setEntry m.nextArray i (m'.entry base.root i)) m.handOut) := by
  obtain ⟨hnot, -, -⟩ := h.books.nextArray_spec hplaced
  have hroot : base.root ∈ m.live := h.mem_live hbase (Intact.root_owns base m)
  have hne : base.root ≠ m.nextArray := fun he => hnot (he ▸ hroot)
  have hsame := Memory.sameBooks_fill (a := m.nextArray) (g := fun m' i => m'.entry base.root i)
    ((List.finRange 512).drop (Level.pgd.index start)) m.handOut
  have hentry (b : PhysicalAddress) (j : Fin 512) := Memory.entry_fill (a := m.nextArray) (b := b)
    (j := j) (g := fun m' i => m'.entry base.root i) (m := m.handOut)
    (fun _ _ _ _ => Memory.entry_setEntry_of_ne fun hc => hne hc.1)
    (Level.pgd.index start)
    (Memory.mem_arrays_handOut.mpr (Or.inl rfl))
  simp only [Memory.entry_handOut, if_neg hne] at hentry
  refine ⟨h.books.handOut.congr hsame, fun b => ?_, hnot, fun b hb j => ?_, fun j hj => ?_,
    ?_, ?_, hnew⟩
  · rw [hsame.live, Memory.mem_live_handOut]
  · have hb' : b ≠ m.nextArray := fun he => hnot (he ▸ hb)
    rw [hentry, if_neg fun hc => hb' hc.1, if_neg hb']
  · have hlt : j < Level.pgd.index start := hj ⟨base.owner, start⟩ rfl
    rw [hentry, if_neg fun hc => absurd hc.2 (Fin.not_le.mpr hlt), if_pos rfl]
  · rintro u hu
    obtain rfl := Option.some.inj hu
    refine ⟨base, hbase, rfl, fun j hj => ?_⟩
    have hge : Level.pgd.index start ≤ j := by
      by_contra hlt
      apply hj
      rintro u hu
      obtain rfl := Option.some.inj hu
      exact Fin.not_le.mp hlt
    rw [hentry, if_pos ⟨rfl, hge⟩]
  · rintro u hu
    obtain rfl := Option.some.inj hu
    exact ⟨haligned, hcanonical⟩

theorem createAbove_triple (hbase : base ∈ S) {owner : OwnerId}
    (hnew : ∀ t ∈ S, t.owner.number < owner.number) (start : VirtualAddress) (m₀ : Memory) :
    Triple A.codec (fun m => m = m₀ ∧ Intact S m) (base.createAbove start owner)
      (fun s m => s.owner = owner ∧ Born S m₀ s m) (NotMade m₀) := by
  unfold createAbove
  cases hslot : rootSlot start.word with
  | error e =>
    rw [Action.lift_error_bind]
    apply Triple.throw
    rintro m ⟨rfl, -⟩
    exact ⟨rfl, Stop.benign_abort (rootSlot_eq_error hslot)⟩
  | ok first =>
    obtain ⟨haligned, hcanonical, rfl⟩ := rootSlot_eq_ok_iff.mp hslot
    rw [Action.lift_ok_bind]
    apply Triple.bind (Triple.allocate ?_)
    · intro root
      apply Triple.bind (Q := fun _ m' => Born S m₀
        ⟨owner, root, some ⟨base.owner, start.word⟩, false⟩ m')
      · apply Triple.update fun m => (Memory.sameBooks_fill _ m).before
        rintro m' - ⟨m, ⟨rfl, h⟩, -, rfl, rfl, hplaced⟩
        exact born_above h hbase hnew haligned hcanonical hplaced
      · intro _
        apply Triple.bind Triple.log
        intro _
        exact Triple.pure fun m h => ⟨rfl, h⟩
    · rintro m ⟨rfl, -⟩ -
      exact ⟨rfl, Stop.benign_refusal _⟩

end AddressSpace

end Sandbox
