import Sandbox.Proofs.Space.Compact
import Sandbox.Proofs.Space.Create
import Sandbox.Proofs.Walk.Segments

/-! # Teardown of a space

Unmapping everything leaves nothing but the root, whatever state the space was in: arrays
that are left hold a valid entry, down to a leaf, and no leaf is left. Once the shared
slots are dropped, the root is empty and is given back. A teardown never fails.
-/

namespace Sandbox

open AddressSpace Walk

variable {A : Architecture} {S S' : List (AddressSpace A)} {s t : AddressSpace A}
  {m m₀ m' : Memory} {start stop top : Word} {T T' : List (Fin 512) → Prop} {C C' : Word → Prop}
  {p q : List (Fin 512)} {a b : PhysicalAddress}

/-! ## Clearing ranges -/

/-- While a space is cleared, the arrays passed so far are tidy and some pages are free. -/
structure Sweeping (S : List (AddressSpace A)) (s : AddressSpace A) (m₀ : Memory)
    (T : List (Fin 512) → Prop) (C : Word → Prop) (m : Memory) : Prop where
  intact : Intact S m
  framed : Framed S s 0 maxEnd m₀ m
  tidy : Tidy s m T
  free : ∀ y, IsPage y → C y → s.leafAt m y = 0
  released : ∃ freed, Released s m₀ m freed

theorem Sweeping.mono (h : Sweeping S s m₀ T C m) (hT : ∀ q, T' q → T q) (hC : ∀ y, C' y → C y) :
    Sweeping S s m₀ T' C' m :=
  ⟨h.intact, h.framed, h.tidy.mono hT, fun y hy hc => h.free y hy (hC y hc), h.released⟩

theorem sweep_triple (hs : s ∈ S) (he : Editable S s start stop) (ha : Accepted start stop)
    (m₀ : Memory) (T : List (Fin 512) → Prop) (C : Word → Prop) :
    Triple A.codec (Sweeping S s m₀ T C) (s.change Visitor.unmap start stop false)
      (fun _ => Sweeping S s m₀ (fun q => T q ∨ Passed start stop q)
        (fun y => C y ∨ start.toNat ≤ y.toNat ∧ y.toNat < stop.toNat)) (fun _ _ => False) := by
  have hscope : Scope S s ⟨A.codec, Visitor.unmap, true, stop⟩ start :=
    ⟨rfl, hs, ha, fun _ _ _ _ _ => unmap_leaves, Or.inr he⟩
  apply Triple.ghost
  intro m₁
  have hkeep := ((Keeps.framed hscope m₁).and (Keeps.tidy hscope rfl rfl T)).and
    ((Keeps.released rfl m₁).and (Keeps.pages hscope (unmap_pages ha (s.leafAt m₁))))
  refine ((range_triple hscope hkeep false).frame (F := Sweeping S s m₀ T C m₁)).conseq ?_ ?_ ?_
  · rintro m ⟨rfl, h⟩
    refine ⟨h, h.intact, ⟨.refl S s start stop m, ?_⟩, ⟨[], .refl s m⟩, ?_⟩
    · rintro q b hq ho ⟨ht | ⟨l, z, hz, hz', -⟩, -⟩
      · exact h.tidy q b hq ho ht
      · omega
    · intro y _
      dsimp only
      rw [ha.seen_start, if_neg (by omega)]
  · rintro r m ⟨h, hi, ⟨x, (hx : stop.toNat ≤ x.toNat), ⟨hf, ht⟩, ⟨freed, hr⟩, hc⟩ | ⟨-, -, hk⟩⟩
    · rw [seen_of_stop_le hx] at hc
      obtain ⟨freed₁, hr₁⟩ := h.released
      refine ⟨hi, h.framed.trans (framed_weaken ha hf), fun q b hq ho htq => ?_, fun y hy hcy => ?_,
        _, hr₁.trans hr⟩
      · refine ht q b hq ho ⟨htq.imp_right fun ⟨l, z, hz, hz', hqz⟩ => ⟨l, z, hz, by omega, hqz⟩, ?_⟩
        exact fun hsuf => hq (List.suffix_nil.mp hsuf)
      · rw [hc y hy]
        split
        · rfl
        · next hn =>
          refine h.free y hy (hcy.resolve_right fun hin => hn ⟨hin.1, ?_⟩)
          unfold pageEnd
          omega
    · exact hk.elim
  · rintro e m ⟨-, -, -, hf⟩
    exact hf

theorem clearRanges_triple (hs : s ∈ S) (m₀ : Memory) (L : List (Word × Word))
    (hL : ∀ r ∈ L, Editable S s r.1 r.2 ∧ Accepted r.1 r.2) (T : List (Fin 512) → Prop)
    (C : Word → Prop) :
    Triple A.codec (Sweeping S s m₀ T C) (s.clearRanges L)
      (fun _ => Sweeping S s m₀ (fun q => T q ∨ ∃ r ∈ L, Passed r.1 r.2 q)
        (fun y => C y ∨ ∃ r ∈ L, r.1.toNat ≤ y.toNat ∧ y.toNat < r.2.toNat))
      (fun _ _ => False) := by
  induction L generalizing T C with
  | nil =>
    apply Triple.pure
    intro m h
    exact h.mono (fun q => by simp) fun y => by simp
  | cons r L ih =>
    obtain ⟨start, stop⟩ := r
    obtain ⟨he, ha⟩ := hL _ List.mem_cons_self
    apply Triple.bind (sweep_triple hs he ha m₀ T C)
    intro _
    apply (ih (fun r hr => hL r (List.mem_cons_of_mem _ hr)) _ _).post
    intro _ m h
    apply h.mono
    · rintro q (ht | ⟨r, hr, hp⟩)
      · exact Or.inl (Or.inl ht)
      · rcases List.mem_cons.mp hr with rfl | hr
        · exact Or.inl (Or.inr hp)
        · exact Or.inr ⟨r, hr, hp⟩
    · rintro y (hc | ⟨r, hr, hp⟩)
      · exact Or.inl (Or.inl hc)
      · rcases List.mem_cons.mp hr with rfl | hr
        · exact Or.inl (Or.inr hp)
        · exact Or.inr ⟨r, hr, hp⟩

/-! ## What is left -/

/-- Clearing reaches all pages of the space's own but the last one. -/
def Reached (s : AddressSpace A) (top : Word) : Prop :=
  ∀ y, IsPage y → s.OwnsSlot (Level.pgd.index y) → y.toNat < maxEnd.toNat → y.toNat < top.toNat

theorem Sweeping.path_eq_nil (h : Sweeping S s m₀ (fun q => ∃ r ∈ Canonical.segments 0 top,
      Passed r.1 r.2 q) (fun y => maxEnd.toNat ≤ y.toNat ∨ ∃ r ∈ Canonical.segments 0 top,
      r.1.toNat ≤ y.toNat ∧ y.toNat < r.2.toNat) m) (hs : s ∈ S) (hr : Reached s top)
    (ho : s.Owns m q b) : q = [] := by
  have hcovered {y : Word} (hy : IsPage y) (hslot : s.OwnsSlot (Level.pgd.index y))
      (hlt : y.toNat < maxEnd.toNat) : ∃ r ∈ Canonical.segments 0 top,
      r.1.toNat ≤ y.toNat ∧ y.toNat < r.2.toNat :=
    Canonical.exists_segment hy.canonical (Nat.zero_le _) (hr y hy hslot hlt)
  by_contra hq
  obtain ⟨y, ⟨hy, hv⟩, hsuf⟩ := h.tidy.exists_maps h.intact hs (fun q b hq ho => by
    obtain ⟨l, z, hz, hzlt, rfl⟩ := exists_page_below hq ho.length_le
    obtain ⟨r, hrm, hrz⟩ := hcovered hz (ho.ownsPath _ (getLast?_path hq)) hzlt
    exact ⟨r, hrm, l, z, hrz.1, hrz.2, rfl⟩) hq ho
  have hfree : s.leafAt m y = 0 := by
    apply h.free y hy
    by_cases hlast : maxEnd.toNat ≤ y.toNat
    · exact Or.inl hlast
    · exact Or.inr (hcovered hy (ownsSlot_of_suffix hq ho.ownsPath hsuf) (by omega))
  rw [hfree, A.lawful.isValid_zero] at hv
  cases hv

/-! ## Giving the root back -/

/-- The arrays of a list are those that the space owned, and were given back, each once. -/
structure GivenBack (s : AddressSpace A) (m₀ m : Memory) (freed : List PhysicalAddress) : Prop where
  nodup : freed.Nodup
  mem_iff : ∀ b, b ∈ freed ↔ ∃ q, s.Owns m₀ q b
  pool : m.pool = freed ++ m₀.pool
  frees : m.frees = m₀.frees + freed.length

structure Emptied (S : List (AddressSpace A)) (s : AddressSpace A) (m₀ m₁ m : Memory) : Prop where
  intact : Intact S m₁
  framed : Framed S s 0 maxEnd m₀ m₁
  bare : ∀ q b, s.Owns m₁ q b → q = []
  released : ∃ freed, Released s m₀ m₁ freed
  books : Memory.SameBooks m₁ m
  same : ∀ b, b ≠ s.root → ∀ j, m.entry b j = m₁.entry b j
  empty : ∀ j, A.codec.isValid (m.entry s.root j) = false

namespace Emptied

variable {m₁ : Memory}

theorem root_live (h : Emptied S s m₀ m₁ m) (hs : s ∈ S) : s.root ∈ m.live :=
  h.books.live ▸ h.intact.mem_live hs (Intact.root_owns s m₁)

theorem arrayAt_ne_root (h : Emptied S s m₀ m₁ m) (hs : s ∈ S) (hun : Unshared S s) (ht : t ∈ S)
    (hne : t ≠ s) (hp : p.length ≤ 3) (ha : t.arrayAt m₁ p = some a) : a ≠ s.root := by
  rintro rfl
  exact hne (h.intact.eq_of_arrayAt hs hun (Intact.root_owns s m₁) ht hp ha).1

theorem untouched (h : Emptied S s m₀ m₁ m) (hs : s ∈ S) (hun : Unshared S s) (ht : t ∈ S)
    (hne : t ≠ s) : t.Untouched m₁ (m.giveBack s.root) :=
  fun _ b hq hb => h.same b (h.arrayAt_ne_root hs hun ht hne hq hb)

theorem givenBack (h : Emptied S s m₀ m₁ m) :
    ∃ freed, GivenBack s m₀ (m.giveBack s.root) freed := by
  obtain ⟨freed, hr⟩ := h.released
  have hroot : ∃ q, s.Owns m₁ q s.root := ⟨[], Intact.root_owns s m₁⟩
  refine ⟨s.root :: freed, List.nodup_cons.mpr ⟨fun hb => ((hr.mem_iff _).mp hb).2 hroot, hr.nodup⟩,
    fun b => ?_, ?_, ?_⟩
  · rw [List.mem_cons, hr.mem_iff]
    constructor
    · rintro (rfl | ⟨hold, -⟩)
      · exact ⟨[], Intact.root_owns s m₀⟩
      · exact hold
    · intro hold
      by_cases hnow : ∃ q, s.Owns m₁ q b
      · obtain ⟨q, ho⟩ := hnow
        obtain rfl := h.bare q b ho
        exact Or.inl (Option.some.inj ho.arrayAt_eq).symm
      · exact Or.inr ⟨hold, hnow⟩
  · rw [Memory.pool_giveBack, h.books.pool, hr.pool, List.cons_append]
  · change m.frees + 1 = _
    rw [h.books.frees, hr.frees, List.length_cons, Nat.add_assoc]

theorem intact_giveBack (h : Emptied S s m₀ m₁ m) (hs : s ∈ S) (hun : Unshared S s)
    (hS : ∀ t, t ∈ S' ↔ t ∈ S ∧ t ≠ s) : Intact S' (m.giveBack s.root) := by
  have hroot (t : AddressSpace A) (ht : t ∈ S) (hne : t ≠ s) : t.root ≠ s.root :=
    h.arrayAt_ne_root hs hun ht hne (by simp) (t.arrayAt_nil m₁)
  have hentry (t : AddressSpace A) (ht : t ∈ S) (hne : t ≠ s) (p : List (Fin 512))
      (a : PhysicalAddress) (ho : t.Owns m₁ p a) (j : Fin 512) :
      (m.giveBack s.root).entry a j = m₁.entry a j :=
    h.same a (h.arrayAt_ne_root hs hun ht hne ho.length_le ho.arrayAt_eq) j
  constructor
  case owner_inj =>
    intro t ht r hr
    exact h.intact.owner_inj t ((hS t).mp ht).1 r ((hS r).mp hr).1
  case split => exact fun t ht => h.intact.split t ((hS t).mp ht).1
  case base =>
    intro t ht u hu
    obtain ⟨ht, hne⟩ := (hS t).mp ht
    obtain ⟨b, hb, hbu, hlt, hcopy⟩ := h.intact.base t ht u hu
    have hbs : b ≠ s := by
      rintro rfl
      exact hun t ht u hu hbu.symm
    refine ⟨b, (hS b).mpr ⟨hb, hbs⟩, hbu, hlt, fun j hj => ?_⟩
    rw [Memory.entry_giveBack, Memory.entry_giveBack, h.same _ (hroot t ht hne),
      h.same _ (hroot b hb hbs), hcopy j hj]
  case live_iff =>
    intro a
    rw [Memory.mem_live_giveBack, h.books.live, h.intact.live_iff]
    constructor
    · rintro ⟨hne, t, ht, q, ho⟩
      have hts : t ≠ s := by
        rintro rfl
        obtain rfl := h.bare q a ho
        exact hne (Option.some.inj ho.arrayAt_eq).symm
      exact ⟨t, (hS t).mpr ⟨ht, hts⟩, q, (h.untouched hs hun ht hts).owns_iff.mpr ho⟩
    · rintro ⟨t, ht, q, ho⟩
      obtain ⟨ht, hne⟩ := (hS t).mp ht
      have hm := (h.untouched hs hun ht hne).owns_iff.mp ho
      exact ⟨h.arrayAt_ne_root hs hun ht hne hm.length_le hm.arrayAt_eq, t, ht, q, hm⟩
  case unique =>
    intro t ht r hr p q a ho ho'
    obtain ⟨ht, hne⟩ := (hS t).mp ht
    obtain ⟨hr, hne'⟩ := (hS r).mp hr
    exact h.intact.unique t ht r hr p q a ((h.untouched hs hun ht hne).owns_iff.mp ho)
      ((h.untouched hs hun hr hne').owns_iff.mp ho')
  case pointers =>
    intro t ht p a ho hp i
    obtain ⟨ht, hne⟩ := (hS t).mp ht
    have hm := (h.untouched hs hun ht hne).owns_iff.mp ho
    rw [hentry t ht hne p a hm]
    exact h.intact.pointers t ht p a hm hp i
  case leaves =>
    intro t ht p a ho hp i
    obtain ⟨ht, hne⟩ := (hS t).mp ht
    have hm := (h.untouched hs hun ht hne).owns_iff.mp ho
    rw [hentry t ht hne p a hm]
    exact h.intact.leaves t ht p a hm hp i
  case books => exact (h.intact.books.congr h.books).giveBack (h.root_live hs)

end Emptied

namespace AddressSpace

def ownedEnd (s : AddressSpace A) : Word :=
  match s.upper with
  | none => maxEnd
  | some u => u.start

theorem ownedEnd_eq {u : SharedUpper} (hu : s.upper = some u) : s.ownedEnd = u.start := by
  unfold ownedEnd
  rw [hu]

theorem WellSplit.isTop (h : s.WellSplit) : Canonical.IsTop s.ownedEnd := by
  cases hu : s.upper with
  | none =>
    unfold ownedEnd
    rw [hu]
    exact Canonical.isTop_maxEnd
  | some u =>
    obtain ⟨ha, hc⟩ := h u hu
    have hlt := u.start.isLt
    rw [ownedEnd_eq hu]
    exact ⟨by omega, by omega, hc⟩

theorem WellSplit.reached (h : s.WellSplit) : Reached s s.ownedEnd := by
  intro y hy hslot hlt
  cases hu : s.upper with
  | none =>
    unfold ownedEnd
    rw [hu]
    exact hlt
  | some u =>
    rw [ownedEnd_eq hu]
    exact (h.ownsSlot_iff hy.canonical).mp hslot u hu

theorem clear_triple (hs : s ∈ S) (hsplit : s.WellSplit) (hun : Unshared S s) (m₀ : Memory) :
    Triple A.codec (fun m => m = m₀ ∧ Intact S m ∧
        ∀ y, IsPage y → maxEnd.toNat ≤ y.toNat → s.leafAt m y = 0)
      (s.clearRanges (Canonical.segments 0 s.ownedEnd))
      (fun _ m => Intact S m ∧ Framed S s 0 maxEnd m₀ m ∧ (∀ q b, s.Owns m q b → q = []) ∧
        ∃ freed, Released s m₀ m freed)
      (fun _ _ => False) := by
  refine (clearRanges_triple hs m₀ (Canonical.segments 0 s.ownedEnd) ?_ (fun _ => False)
    (fun y => maxEnd.toNat ≤ y.toNat)).conseq ?_ ?_ fun _ _ he => he
  · rintro ⟨start, stop⟩ hr
    obtain ⟨ha, -, hle⟩ := Canonical.accepted_of_mem_segments rfl hsplit.isTop hr
    refine ⟨hsplit.editable hun ha fun u hu => ?_, ha⟩
    rwa [← ownedEnd_eq hu]
  · rintro m ⟨rfl, h, hlast⟩
    exact ⟨h, .refl S s 0 maxEnd m, fun _ _ _ _ hf => hf.elim, hlast, [], .refl s m⟩
  · rintro - m h
    have hswept : Sweeping S s m₀
        (fun q => ∃ r ∈ Canonical.segments 0 s.ownedEnd, Passed r.1 r.2 q) _ m :=
      h.mono (fun q hq => Or.inr hq) fun y hy => hy
    exact ⟨h.intact, h.framed, fun q b ho => hswept.path_eq_nil hs hsplit.reached ho, h.released⟩

theorem root_entry_eq_zero (h : Intact S m) (hs : s ∈ S) (hbare : ∀ q b, s.Owns m q b → q = [])
    {j : Fin 512} (hj : s.OwnsSlot j) : m.entry s.root j = 0 := by
  refine (h.pointers s hs [] s.root (Intact.root_owns s m) (by simp) j).resolve_right ?_
  rintro ⟨d, hd⟩
  have hbelow : s.Owns m [j] d := by
    refine ⟨ownsPath_singleton.mpr hj, by simp, ?_⟩
    rw [arrayAt_cons, arrayAt_nil, Option.bind_some, hd.child?_eq A.lawful]
  cases hbare _ _ hbelow

theorem emptied_own (h : Intact S m) (hf : Framed S s 0 maxEnd m₀ m) (hs : s ∈ S)
    (hbare : ∀ q b, s.Owns m q b → q = []) (hr : ∃ freed, Released s m₀ m freed)
    (hu : s.upper = none) : Emptied S s m₀ m m := by
  refine ⟨h, hf, hbare, hr, .refl m, fun _ _ _ => rfl, fun j => ?_⟩
  rw [root_entry_eq_zero h hs hbare (fun u hu' => by rw [hu] at hu'; cases hu'),
    A.lawful.isValid_zero]

theorem emptied_shared (h : Intact S m) (hf : Framed S s 0 maxEnd m₀ m) (hs : s ∈ S)
    (hbare : ∀ q b, s.Owns m q b → q = []) (hr : ∃ freed, Released s m₀ m freed)
    {u : SharedUpper} (hu : s.upper = some u) :
    Emptied S s m₀ m (((List.finRange 512).drop (Level.pgd.index u.start)).foldl
      (fun m i => m.setEntry s.root i 0) m) := by
  have hroot := h.books.present _ (h.mem_live hs (Intact.root_owns s m))
  have hentry (b : PhysicalAddress) (j : Fin 512) := Memory.entry_fill (a := s.root) (b := b)
    (j := j) (g := fun _ _ => 0) (m := m) (fun _ _ _ _ => rfl)
    (Level.pgd.index u.start) hroot
  refine ⟨h, hf, hbare, hr, Memory.sameBooks_fill (g := fun _ _ => 0) _ m, fun b hb j => ?_,
    fun j => ?_⟩
  · rw [hentry, if_neg fun hc => hb hc.1]
  · rw [hentry]
    split
    · exact A.lawful.isValid_zero
    · next hn =>
      have hslot : s.OwnsSlot j := by
        intro u' hu'
        rw [hu] at hu'
        obtain rfl := Option.some.inj hu'
        exact Fin.not_le.mp fun hle => hn ⟨rfl, hle⟩
      rw [root_entry_eq_zero h hs hbare hslot, A.lawful.isValid_zero]

theorem release_triple (hs : s ∈ S) (hun : Unshared S s) (hS : ∀ t, t ∈ S' ↔ t ∈ S ∧ t ≠ s)
    (m₀ : Memory) :
    Triple A.codec (fun m => ∃ m₁, Emptied S s m₀ m₁ m)
      (do
        if ((← Action.read).array s.root).isEmpty A.codec then
          Memory.free s.root
          Action.log (.spaceReleased s.owner)
        else
          Action.abort (.rootInUse s.owner))
      (fun _ m => Intact S' m ∧ (∀ t ∈ S', t.Untouched m₀ m) ∧ ∃ freed, GivenBack s m₀ m freed)
      (fun _ _ => False) := by
  apply Triple.bind Triple.read
  intro m'
  apply Triple.ite
  · intro _
    apply Triple.bind (Triple.free _ _) fun _ => Triple.log
    · rintro m ⟨-, m₁, h⟩
      exact h.root_live hs
    · rintro m ⟨-, m₁, h⟩
      refine ⟨h.intact_giveBack hs hun hS, fun t ht => ?_, h.givenBack⟩
      obtain ⟨ht, hne⟩ := (hS t).mp ht
      exact (h.framed.others t ht hne).trans (h.untouched hs hun ht hne)
  · intro hn
    apply Triple.throw
    rintro m ⟨rfl, m₁, h⟩
    exact hn ((EntryArray.isEmpty_iff _ _).mpr h.empty)

/-- A teardown returns, gives back what the space owned, and leaves the other spaces alone. -/
theorem teardown_triple (hs : s ∈ S) (hsplit : s.WellSplit) (hun : Unshared S s)
    (hS : ∀ t, t ∈ S' ↔ t ∈ S ∧ t ≠ s) (m₀ : Memory) :
    Triple A.codec (fun m => m = m₀ ∧ Intact S m ∧
        ∀ y, IsPage y → maxEnd.toNat ≤ y.toNat → s.leafAt m y = 0)
      s.teardown
      (fun _ m => Intact S' m ∧ (∀ t ∈ S', t.Untouched m₀ m) ∧ ∃ freed, GivenBack s m₀ m freed)
      (fun _ _ => False) := by
  have hclear := clear_triple hs hsplit hun m₀
  unfold teardown
  cases hu : s.upper with
  | none =>
    have hend : s.ownedEnd = maxEnd := by unfold ownedEnd; rw [hu]
    rw [hend] at hclear
    apply Triple.bind hclear
    intro _
    apply (release_triple hs hun hS m₀).pre
    rintro m ⟨h, hf, hbare, hr⟩
    exact ⟨m, emptied_own h hf hs hbare hr hu⟩
  | some u =>
    rw [ownedEnd_eq hu] at hclear
    apply Triple.bind hclear
    intro _
    obtain ⟨haligned, hcanonical⟩ := hsplit u hu
    rw [rootSlot_eq_ok_iff.mpr ⟨haligned, hcanonical, rfl⟩, Action.lift_ok_bind]
    apply Triple.bind (Q := fun _ m => ∃ m₁, Emptied S s m₀ m₁ m)
    · apply Triple.update fun m => (Memory.sameBooks_fill (g := fun _ _ => 0) _ m).before
      rintro m - ⟨h, hf, hbare, hr⟩
      exact ⟨m, emptied_shared h hf hs hbare hr hu⟩
    · exact fun _ => release_triple hs hun hS m₀

/-! ## What teardowns are made of -/

section Closed

variable {P : ∀ ⦃β : Type⦄, Action Memory β → Prop}

theorem clearRanges_closed (h : Action.Closed P) (s : AddressSpace A)
    (hwalk : ∀ start stop, P (s.change Visitor.unmap start stop false))
    (L : List (Word × Word)) : P (s.clearRanges L) := by
  induction L with
  | nil => exact h.pure ()
  | cons r L ih => exact h.bind (hwalk r.1 r.2) fun _ => ih

/-- A teardown does what walks that unmap do, clears slots of the root and frees the root. -/
theorem teardown_closed (h : Action.Closed P) (s : AddressSpace A)
    (hwalk : ∀ start stop, P (s.change Visitor.unmap start stop false))
    (hclear : ∀ first, P (clearSlots s.root first)) (hfree : P (Memory.free s.root)) :
    P s.teardown := by
  have hrelease : P (do
      if ((← Action.read).array s.root).isEmpty A.codec then
        Memory.free s.root
        Action.log (.spaceReleased s.owner)
      else
        Action.abort (.rootInUse s.owner) : Action Memory Unit) :=
    h.bind h.read fun _ => Action.Closed.ite (fun _ => h.bind hfree fun _ => h.log _)
      fun _ => h.throw _
  unfold teardown
  cases s.upper with
  | none => exact h.bind (clearRanges_closed h s hwalk _) fun _ => hrelease
  | some u =>
    exact h.bind (clearRanges_closed h s hwalk _) fun _ => h.bind (h.lift _) fun first =>
      h.bind (hclear first) fun _ => hrelease

end Closed

end AddressSpace

end Sandbox
