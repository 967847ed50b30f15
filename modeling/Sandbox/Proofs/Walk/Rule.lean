import Sandbox.Proofs.Walk.Scope

/-! # The rule for walks

Each part of a walk is given a triple that follows its recursion: pages first, then one
level after the other up to the root. The arrays on the way to the cursor stay where they
are while the walk is below them.
-/

namespace Sandbox

namespace Walk

variable {α : Type} {A : Architecture} {S : List (AddressSpace A)} {s : AddressSpace A}
  {plan : Plan α} {start x : Word} {J : List (Fin 512) → Word → α → Memory → Prop}
  {K : α → Memory → Prop} {E : Stop → Memory → Prop} {m m₀ : Memory} {l child : Level}
  {a : PhysicalAddress} {i : Fin 512}

/-- The walk is about to look at the slot of its cursor. -/
structure Ready (S : List (AddressSpace A)) (s : AddressSpace A) (plan : Plan α) (start : Word)
    (J : List (Fin 512) → Word → α → Memory → Prop) (l : Level) (a : PhysicalAddress)
    (p : Pass α) (m : Memory) : Prop where
  position : At S s start plan.stop m l a p.cursor
  running : p.running = true
  inv : J (l.path p.cursor) p.cursor p.result m

def Trail (s : AddressSpace A) (m₀ m : Memory) (path : List (Fin 512)) : Prop :=
  ∀ q, q <:+ path → s.arrayAt m q = s.arrayAt m₀ q

/-- The walk has left the block of `2 ^ k` bytes, or a visit has stopped it. -/
structure Done (S : List (AddressSpace A)) (s : AddressSpace A) (plan : Plan α)
    (J : List (Fin 512) → Word → α → Memory → Prop) (K : α → Memory → Prop) (l : Level)
    (k : Nat) (x : Word) (m₀ : Memory) (p : Pass α) (m : Memory) : Prop where
  intact : Intact S m
  trail : Trail s m₀ m (l.path x)
  inv : if p.running = true
    then Past plan.stop k x p.cursor ∧ J (l.path x) p.cursor p.result m else K p.result m

def Failed (S : List (AddressSpace A)) (E : Stop → Memory → Prop) (e : Stop) (m : Memory) :
    Prop :=
  Intact S m ∧ E e m

theorem Trail.refl (s : AddressSpace A) (m : Memory) (p : List (Fin 512)) : Trail s m m p :=
  fun _ _ => rfl

structure Visited (S : List (AddressSpace A)) (s : AddressSpace A) (plan : Plan α) (start : Word)
    (J : List (Fin 512) → Word → α → Memory → Prop) (K : α → Memory → Prop) (m₀ : Memory)
    (p : Pass α) (v : Visit α) (m : Memory) : Prop where
  intact : Intact S m
  inside : Inside start plan.stop p.cursor
  running : p.running = true
  trail : Trail s m₀ m (Level.pte.path p.cursor)
  after : After J K p.cursor v m

theorem add_triple {P : Memory → Prop} (hstop : plan.stop.toNat ≤ 2 ^ 64 - 4096)
    (hP : ∀ m, P m → Inside start plan.stop x) :
    Triple A.codec P (liftM (Word.add x pageSize)) (fun y m => y = x + pageSize ∧ P m)
      (Failed S E) := by
  apply Triple.lift
  · intro y hy m hp
    rw [((hP m hp).add hstop).1] at hy
    exact ⟨(Except.ok.inj hy).symm, hp⟩
  · intro e he m hp
    rw [((hP m hp).add hstop).1] at he
    cases he

theorem move_triple (hs : Scope S s plan start) (p : Pass α) (v : Visit α) (m₀ : Memory) :
    Triple A.codec (Visited S s plan start J K m₀ p v)
      (if v.proceed = true then do
        return { p with cursor := ← Word.add p.cursor pageSize, result := v.result }
      else return { p with result := v.result, running := false } : Action Memory (Pass α))
      (Done S s plan J K .pte Level.pte.shift p.cursor m₀) (Failed S E) := by
  have hstop := hs.accepted.stop_le
  apply Triple.ite
  · intro hgo
    apply Triple.bind (add_triple hstop fun m h => Visited.inside h)
    intro y
    apply Triple.pure
    rintro m ⟨rfl, h⟩
    have hafter := h.after
    rw [After, if_pos hgo] at hafter
    refine ⟨h.intact, h.trail, ?_⟩
    rw [if_pos h.running]
    exact ⟨h.inside.past hstop, hafter⟩
  · intro hgo
    apply Triple.pure
    intro m h
    have hafter := h.after
    rw [After, if_neg hgo] at hafter
    exact ⟨h.intact, h.trail, hafter⟩

theorem page_triple (hs : Scope S s plan start) (hk : Keeps S s plan start J K E)
    (a : PhysicalAddress) (i : Fin 512) (p : Pass α) (m₀ : Memory) :
    Triple A.codec (fun m => m = m₀ ∧ i = Level.pte.index p.cursor ∧
      Ready S s plan start J .pte a p m) (page plan a i p)
      (Done S s plan J K .pte Level.pte.shift p.cursor m₀) (Failed S E) := by
  have hstop := hs.accepted.stop_le
  unfold page
  rw [hs.codec_eq]
  apply Triple.bind Triple.load
  intro word
  apply Triple.ite
  · intro hval
    apply Triple.bind
    · apply Triple.lift (Q := fun v m => plan.visitor.visit p.cursor word p.result = .ok v ∧
        word = m.entry a i ∧ m = m₀ ∧ i = Level.pte.index p.cursor ∧
        Ready S s plan start J .pte a p m)
      · intro v hv m hm
        exact ⟨hv, hm⟩
      · rintro e he m ⟨rfl, rfl, rfl, h⟩
        exact ⟨h.position.intact, hk.abort h.position hval he h.inv⟩
    · intro v
      cases hentry : v.entry with
      | none =>
        apply (move_triple hs p v m₀).pre
        rintro m ⟨hv, rfl, rfl, rfl, h⟩
        exact ⟨h.position.intact, h.position.inside, h.running, .refl s m _,
          hk.visit h.position hval hv hentry h.inv⟩
      | some w =>
        refine Triple.bind (Triple.store ?_) fun _ => move_triple hs p v m₀
        rintro m ⟨hv, rfl, rfl, rfl, h⟩
        have hsite := h.position.site (hs.editable_of_entry hv hentry)
        refine ⟨hsite.intact_setEntry rfl (hs.leaves _ _ _ _ _ hv hentry), h.position.inside,
          h.running, fun q hq => ?_, hk.write h.position hsite hval hv hentry h.inv⟩
        exact hsite.arrayAt_setEntry rfl h.position.mem hq.length_le
  · intro hval
    rw [not_or, Bool.not_eq_true, Bool.not_eq_true] at hval
    apply Triple.bind (add_triple hstop fun m hm => hm.2.2.2.position.inside)
    intro y
    apply Triple.pure
    rintro m ⟨rfl, rfl, rfl, rfl, h⟩
    have hpast := h.position.inside.past hstop
    refine ⟨h.position.intact, .refl s m _, ?_⟩
    rw [if_pos h.running]
    exact ⟨hpast, hk.skip h.position hval.2 hval.1 hpast h.inv⟩

/-- The triple of a walk over one array. -/
def Walks (S : List (AddressSpace A)) (s : AddressSpace A) (plan : Plan α) (start : Word)
    (J : List (Fin 512) → Word → α → Memory → Prop) (K : α → Memory → Prop)
    (E : Stop → Memory → Prop) (l : Level)
    (walk : PhysicalAddress → Pass α → Action Memory (Pass α)) : Prop :=
  ∀ a p m₀, Triple A.codec (fun m => m = m₀ ∧ Ready S s plan start J l a p m) (walk a p)
    (Done S s plan J K l (l.shift + 9) p.cursor m₀) (Failed S E)

structure Entering (S : List (AddressSpace A)) (s : AddressSpace A) (plan : Plan α) (start : Word)
    (J : List (Fin 512) → Word → α → Memory → Prop) (l child : Level) (a b : PhysicalAddress)
    (i : Fin 512) (p : Pass α) (m : Memory) : Prop where
  index_eq : i = l.index p.cursor
  position : At S s start plan.stop m l a p.cursor
  ready : Ready S s plan start J child b p m

structure Returned (S : List (AddressSpace A)) (s : AddressSpace A) (plan : Plan α) (start : Word)
    (J : List (Fin 512) → Word → α → Memory → Prop) (K : α → Memory → Prop) (l child : Level)
    (a b : PhysicalAddress) (x : Word) (m₀ : Memory) (p : Pass α) (m : Memory) : Prop where
  position : At S s start plan.stop m l a x
  below : At S s start plan.stop m child b x
  done : Done S s plan J K child l.shift x m₀ p m

theorem Trail.of_below (hb : Level.Below child l) (h : Trail s m₀ m (child.path x)) :
    Trail s m₀ m (l.path x) := by
  intro q hq
  apply h q (hq.trans _)
  rw [hb.path_eq]
  exact List.suffix_cons _ _

theorem Returned.of_entering (hb : Level.Below child l) {b : PhysicalAddress} {p p' : Pass α}
    (he : Entering S s plan start J l child a b i p m₀)
    (hd : Done S s plan J K child (child.shift + 9) p.cursor m₀ p' m) :
    Returned S s plan start J K l child a b p.cursor m₀ p' m := by
  rw [← hb.shift_eq] at hd
  refine ⟨⟨hd.intact, he.position.mem, he.position.inside, ?_⟩,
    ⟨hd.intact, he.position.mem, he.position.inside, ?_⟩, hd⟩
  · rw [hd.trail.of_below hb _ List.suffix_rfl, he.position.arrayAt_eq]
  · rw [hd.trail _ List.suffix_rfl, he.ready.position.arrayAt_eq]

theorem Returned.keep (hk : Keeps S s plan start J K E) (hb : Level.Below child l)
    {b : PhysicalAddress} {p : Pass α} (h : Returned S s plan start J K l child a b x m₀ p m)
    (hkeep : p.running = true → plan.reclaim = false ∨ plan.visitor.allocates = true ∨
      ¬ Site.Vacant m A.codec b) : Done S s plan J K l l.shift x m₀ p m := by
  have hinv := h.done.inv
  refine ⟨h.done.intact, h.done.trail.of_below hb, ?_⟩
  by_cases hrun : p.running = true
  · rw [if_pos hrun] at hinv ⊢
    exact ⟨hinv.1, hk.leave hb h.position h.below hinv.1 (hkeep hrun) hinv.2⟩
  · rwa [if_neg hrun] at hinv ⊢

theorem Returned.release (hs : Scope S s plan start) (hk : Keeps S s plan start J K E)
    (hb : Level.Below child l) (hreclaim : plan.reclaim = true) {b : PhysicalAddress}
    {p : Pass α} (hrun : p.running = true)
    (h : Returned S s plan start J K l child a b x m₀ p m)
    (hvac : Site.Vacant m A.codec b) :
    Done S s plan J K l l.shift x m₀ p (m.detach a (l.index x) b) := by
  have hsite := h.position.site (hs.editable_of_reclaim hreclaim)
  have hbelow := h.below.arrayAt_below hb
  have hdepth := hb.length_path_lt x
  have hinv := h.done.inv
  rw [if_pos hrun] at hinv
  refine ⟨hsite.intact_detach hbelow hvac hdepth, fun q hq => ?_, ?_⟩
  · rw [hsite.arrayAt_detach hbelow hvac h.position.mem (hq.length_le.trans hdepth.le), if_neg,
      h.done.trail.of_below hb q hq]
    rintro ⟨-, rfl⟩
    exact AddressSpace.not_cons_suffix _ _ hq
  · rw [if_pos hrun]
    exact ⟨hinv.1, hk.detach hb h.position hsite h.below hreclaim hinv.1 hvac hinv.2⟩

theorem descend_triple (hs : Scope S s plan start) (hk : Keeps S s plan start J K E)
    (hb : Level.Below child l) {walkChild : PhysicalAddress → Pass α → Action Memory (Pass α)}
    (hwalk : Walks S s plan start J K E child walkChild) (a : PhysicalAddress) (i : Fin 512)
    (word : Word) (allocated : Bool) (p : Pass α) (m₀ : Memory) :
    Triple A.codec (fun m => m = m₀ ∧ (allocated = true → plan.visitor.allocates = true) ∧
      Entering S s plan start J l child a (A.codec.address word) i p m)
      (descend plan child walkChild a i word allocated p)
      (Done S s plan J K l l.shift p.cursor m₀) (Failed S E) := by
  unfold descend
  rw [hs.codec_eq]
  apply Triple.bind (Triple.resolve fun m hm => hm.2.2.ready.position.mem_live)
  intro b
  apply Triple.bind (Q := fun p' m =>
    ((allocated = true → plan.visitor.allocates = true) ∧ i = l.index p.cursor) ∧
    Returned S s plan start J K l child a b p.cursor m₀ p' m)
  · refine ((hwalk b p m₀).frame (F := (allocated = true → plan.visitor.allocates = true) ∧
      Entering S s plan start J l child a b i p m₀)).conseq ?_ ?_ fun _ _ he => he
    · rintro m ⟨rfl, rfl, hal, he⟩
      exact ⟨⟨hal, he⟩, rfl, he.ready⟩
    · rintro p' m ⟨⟨hal, he⟩, hd⟩
      exact ⟨⟨hal, he.index_eq⟩, .of_entering hb he hd⟩
  · intro p'
    apply Triple.ite
    · rintro ⟨hrun, hreclaim, -⟩
      apply Triple.bind Triple.read
      intro m'
      apply Triple.ite
      · intro hempty
        have hvac := (EntryArray.isEmpty_iff _ _).mp hempty
        apply Triple.bind (Q := fun _ m => i = l.index p.cursor ∧ m = m'.setEntry a i 0 ∧
          Returned S s plan start J K l child a b p.cursor m₀ p' m')
        · apply Triple.store
          rintro m ⟨rfl, ⟨-, hi⟩, h⟩
          exact ⟨hi, rfl, h⟩
        · intro _
          apply Triple.bind Triple.log
          intro _
          apply Triple.bind (Q := fun _ => Done S s plan J K l l.shift p.cursor m₀ p')
          · apply Triple.free
            · rintro m ⟨-, rfl, h⟩
              exact h.below.mem_live
            · rintro m ⟨rfl, rfl, h⟩
              exact h.release hs hk hb hreclaim hrun hvac
          · exact fun _ => Triple.pure fun m h => h
      · intro hempty
        apply Triple.pure
        rintro m ⟨rfl, -, h⟩
        exact h.keep hk hb fun _ => Or.inr (Or.inr fun hvac =>
          hempty ((EntryArray.isEmpty_iff _ _).mpr hvac))
    · intro hn
      apply Triple.pure
      rintro m ⟨⟨hal, -⟩, h⟩
      apply h.keep hk hb
      intro hrun
      rw [not_and, not_and, not_not] at hn
      by_cases hreclaim : plan.reclaim = true
      · exact Or.inr (Or.inl (hal (hn hrun hreclaim)))
      · exact Or.inl (Bool.eq_false_iff.mpr hreclaim)

theorem Ready.attach (hs : Scope S s plan start) (hk : Keeps S s plan start J K E)
    (hb : Level.Below child l) {p : Pass α} {w : Word}
    (h : Ready S s plan start J l a p m) (hal : plan.visitor.allocates = true)
    (hold : A.codec.isValid (m.entry a (l.index p.cursor)) = false)
    (hroom : m.limitReached = false) (hnew : m.nextArray ∉ m.live)
    (hw : A.codec.IsPointer w m.nextArray) :
    Entering S s plan start J l child a m.nextArray (l.index p.cursor) p
      (m.attach a (l.index p.cursor) w) ∧
    Trail s m (m.attach a (l.index p.cursor) w) (l.path p.cursor) := by
  have hsite := h.position.site (hs.editable_of_allocates hal)
  have hdepth := hb.length_path_lt p.cursor
  have hchild := hw.child?_eq A.lawful
  have hintact := hsite.intact_attach hnew hdepth hold hw
  have htrail : Trail s m (m.attach a (l.index p.cursor) w) (l.path p.cursor) := by
    intro q hq
    rw [hsite.arrayAt_attach hnew hdepth hold hchild h.position.mem
      (hq.length_le.trans hdepth.le), if_neg]
    rintro ⟨-, rfl⟩
    exact AddressSpace.not_cons_suffix _ _ hq
  refine ⟨⟨rfl, ⟨hintact, h.position.mem, h.position.inside, ?_⟩,
    ⟨hintact, h.position.mem, h.position.inside, ?_⟩, h.running, ?_⟩, htrail⟩
  · rw [htrail _ List.suffix_rfl, h.position.arrayAt_eq]
  · rw [hb.path_eq, hsite.arrayAt_attach hnew hdepth hold hchild h.position.mem
      (by rw [List.length_cons]; omega), if_pos ⟨rfl, rfl⟩]
  · exact hk.attach hb h.position hsite hal hold hroom hnew hw h.inv

structure Taken (S : List (AddressSpace A)) (s : AddressSpace A) (plan : Plan α) (start : Word)
    (J : List (Fin 512) → Word → α → Memory → Prop) (l : Level) (a b : PhysicalAddress)
    (i : Fin 512) (p : Pass α) (m₀ : Memory) : Prop where
  index_eq : i = l.index p.cursor
  ready : Ready S s plan start J l a p m₀
  invalid : A.codec.isValid (m₀.entry a i) = false
  room : m₀.limitReached = false
  array_eq : b = m₀.nextArray
  fresh : b ∉ m₀.live
  aligned : b.isPageAligned = true
  fits : A.codec.Fits b

/-- A fresh array is attached to an empty slot, and the walk goes on below it. -/
theorem attach_triple (hs : Scope S s plan start) (hk : Keeps S s plan start J K E)
    (hb : Level.Below child l) {walkChild : PhysicalAddress → Pass α → Action Memory (Pass α)}
    (hwalk : Walks S s plan start J K E child walkChild) (hal : plan.visitor.allocates = true)
    (a b : PhysicalAddress) (i : Fin 512) (word : Word) (p : Pass α) (m₀ : Memory) :
    Triple A.codec (fun m => (word = m₀.entry a i ∧ Taken S s plan start J l a b i p m₀) ∧
        m = m₀.handOut)
      (do
        let w ← A.codec.table word b
        Memory.store a i w
        Action.log (.arrayAllocated child b p.cursor)
        descend plan child walkChild a i w true p)
      (Done S s plan J K l l.shift p.cursor m₀) (Failed S E) := by
  apply Triple.bind
  · apply Triple.lift (Q := fun w m => (A.codec.IsPointer w b ∧
      Taken S s plan start J l a b i p m₀) ∧ m = m₀.handOut)
    · rintro w hw m ⟨⟨rfl, h⟩, rfl⟩
      obtain ⟨w', hw', hp⟩ := EntryCodec.table_of_fits h.invalid h.aligned h.fits
      rw [hw] at hw'
      obtain rfl := Except.ok.inj hw'
      exact ⟨⟨hp, h⟩, rfl⟩
    · rintro e he m ⟨⟨rfl, h⟩, rfl⟩
      obtain ⟨w', hw', -⟩ := EntryCodec.table_of_fits h.invalid h.aligned h.fits
      rw [he] at hw'
      cases hw'
  · intro w
    apply Triple.bind (Q := fun _ m => (A.codec.IsPointer w b ∧
      Taken S s plan start J l a b i p m₀) ∧ m = m₀.attach a i w)
    · apply Triple.store
      rintro m ⟨h, rfl⟩
      exact ⟨h, rfl⟩
    · intro _
      apply Triple.bind Triple.log
      intro _
      have hattach (hw : A.codec.IsPointer w b) (h : Taken S s plan start J l a b i p m₀) :
          Entering S s plan start J l child a b i p (m₀.attach a i w) ∧
          Trail s m₀ (m₀.attach a i w) (l.path p.cursor) := by
        obtain ⟨rfl, hr, hinv, hroom, rfl, hnew, -⟩ := h
        exact hr.attach hs hk hb hal hinv hroom hnew hw
      refine ((descend_triple hs hk hb hwalk a i w true p (m₀.attach a i w)).frame
        (F := A.codec.IsPointer w b ∧ Taken S s plan start J l a b i p m₀)).conseq
        ?_ ?_ fun _ _ he => he
      · rintro m ⟨⟨hw, h⟩, rfl⟩
        rw [hw.address_eq A.lawful]
        exact ⟨⟨hw, h⟩, rfl, fun _ => hal, (hattach hw h).1⟩
      · rintro p' m ⟨⟨hw, h⟩, hd⟩
        exact ⟨hd.intact, fun q hq => (hd.trail q hq).trans ((hattach hw h).2 q hq), hd.inv⟩

theorem slot_triple (hs : Scope S s plan start) (hk : Keeps S s plan start J K E)
    (hb : Level.Below child l) {walkChild : PhysicalAddress → Pass α → Action Memory (Pass α)}
    (hwalk : Walks S s plan start J K E child walkChild) (a : PhysicalAddress) (i : Fin 512)
    (p : Pass α) (m₀ : Memory) :
    Triple A.codec (fun m => m = m₀ ∧ i = l.index p.cursor ∧ Ready S s plan start J l a p m)
      (slot plan l child walkChild a i p)
      (Done S s plan J K l l.shift p.cursor m₀) (Failed S E) := by
  unfold slot
  rw [hs.codec_eq]
  apply Triple.bind Triple.load
  intro word
  apply Triple.ite
  · intro hval
    apply Triple.ite
    · intro htable
      apply (descend_triple hs hk hb hwalk a i word false p m₀).pre
      rintro m ⟨rfl, rfl, rfl, h⟩
      obtain ⟨b, hp, hbelow⟩ := h.position.pointer hb hval
      rw [hp.address_eq A.lawful]
      exact ⟨rfl, nofun, rfl, h.position, hbelow, h.running,
        hk.enter hb h.position hbelow h.inv⟩
    · intro htable
      apply Triple.throw
      rintro m ⟨rfl, rfl, rfl, h⟩
      obtain ⟨b, hp, -⟩ := h.position.pointer hb hval
      exact absurd (hp.isTable A.lawful) htable
  · intro hval
    rw [Bool.not_eq_true] at hval
    apply Triple.ite
    · intro hal
      apply Triple.bind (Triple.allocate ?_)
      · intro b
        apply (attach_triple hs hk hb hwalk hal a b i word p m₀).pre
        rintro m' ⟨m, ⟨rfl, rfl, rfl, h⟩, hroom, rfl, rfl, hplaced⟩
        obtain ⟨hnew, haligned, hfits⟩ := h.position.intact.books.nextArray_spec hplaced
        exact ⟨⟨rfl, rfl, h, hval, hroom, rfl, hnew, haligned, hfits⟩, rfl⟩
      · rintro m ⟨rfl, rfl, rfl, h⟩ hlimit
        exact ⟨h.position.intact, hk.full hb h.position hal hval hlimit h.inv⟩
    · intro hal
      apply Triple.pure
      rintro m ⟨rfl, rfl, rfl, h⟩
      have hpast := Past.nextBlock h.position.inside hs.accepted.stop_le l
      refine ⟨h.position.intact, .refl s m _, ?_⟩
      rw [if_pos h.running]
      exact ⟨hpast, hk.skip h.position (Bool.eq_false_iff.mpr hal) hval hpast h.inv⟩

/-- A cursor that started at `x` has `n` slots of its array ahead, or is past the end. -/
structure Reaches (stop : Word) (l : Level) (x : Word) (n : Nat) (y : Word) : Prop where
  le : x.toNat ≤ y.toNat
  bound : y.toNat ≤ (x.toNat / 2 ^ (l.shift + 9) + 1) * 2 ^ (l.shift + 9)
  slot : stop.toNat ≤ y.toNat ∨ (y.toNat % 4096 = 0 ∧
    y.toNat / 2 ^ l.shift + n = x.toNat / 2 ^ (l.shift + 9) * 512 + 512)

namespace Reaches

variable {stop y z : Word} {n : Nat}

theorem refl (h : x.toNat % 4096 = 0) : Reaches stop l x (512 - l.index x) x := by
  have hblock := l.block_eq x
  have hlt := (l.index x).isLt
  have hmem : x.toNat < (x.toNat / 2 ^ (l.shift + 9) + 1) * 2 ^ (l.shift + 9) :=
    (Nat.div_lt_iff_lt_mul (Nat.two_pow_pos _)).mp (Nat.lt_succ_self _)
  exact ⟨Nat.le_refl _, hmem.le, Or.inr ⟨h, by omega⟩⟩

theorem past_of_stop (h : Reaches stop l x n y) (hstop : stop.toNat ≤ y.toNat) :
    Past stop (l.shift + 9) x y :=
  ⟨h.le, h.bound, Or.inl hstop⟩

theorem past_of_end (h : Reaches stop l x 0 y) : Past stop (l.shift + 9) x y := by
  refine ⟨h.le, h.bound, h.slot.imp_right fun ⟨_, hslot⟩ => Nat.le_antisymm h.bound ?_⟩
  have hle : (y.toNat / 2 ^ l.shift) * 2 ^ l.shift ≤ y.toNat := Nat.div_mul_le_self _ _
  rwa [← l.block_end, ← hslot]

theorem at_slot (h : Reaches stop l x (n + 1) y) (hlt : y.toNat < stop.toNat) :
    Fin.ofNat 512 (511 - n) = l.index y ∧ l.path y = l.path x ∧ y.toNat % 4096 = 0 := by
  obtain ⟨haligned, hslot⟩ := h.slot.resolve_left (by omega)
  have hlow : x.toNat / 2 ^ (l.shift + 9) * 512 ≤ y.toNat / 2 ^ l.shift := by
    have := l.block_eq x
    have := Nat.div_le_div_right (c := 2 ^ l.shift) h.le
    omega
  obtain ⟨hindex, hblock⟩ := Level.path_index_of_block (l := l) (y := y) (i := 511 - n)
    (by omega) (b := x.toNat / 2 ^ (l.shift + 9)) (by omega)
  refine ⟨?_, Level.path_congr hblock, haligned⟩
  rw [Fin.ext_iff, hindex, Fin.val_ofNat]
  omega

theorem step (h : Reaches stop l x (n + 1) y) (hlt : y.toNat < stop.toNat)
    (hp : Past stop l.shift y z) : Reaches stop l x n z := by
  obtain ⟨-, hslot⟩ := h.slot.resolve_left (by omega)
  refine ⟨h.le.trans hp.le, hp.bound.trans ?_, ?_⟩
  · rw [← l.block_end]
    exact Nat.mul_le_mul_right _ (by omega)
  · by_cases hz : stop.toNat ≤ z.toNat
    · exact Or.inl hz
    · have haligned := hp.aligned l.twelve_le_shift (by omega)
      have hreach := hp.reach.resolve_left hz
      refine Or.inr ⟨haligned, ?_⟩
      rw [hreach, Nat.mul_div_cancel _ (Nat.two_pow_pos _)]
      omega

end Reaches

/-- The walk is at the head of the loop over the slots of an array. -/
structure Looping (S : List (AddressSpace A)) (s : AddressSpace A) (plan : Plan α) (start : Word)
    (J : List (Fin 512) → Word → α → Memory → Prop) (K : α → Memory → Prop) (l : Level)
    (a : PhysicalAddress) (x : Word) (m₀ : Memory) (n : Nat) (p : Pass α) (m : Memory) :
    Prop where
  position : At S s start plan.stop m l a x
  trail : Trail s m₀ m (l.path x)
  inv : if p.running = true
    then Reaches plan.stop l x n p.cursor ∧ J (l.path x) p.cursor p.result m else K p.result m

/-- The loop over the slots of an array, from the triple of one slot. -/
theorem slots_triple {visit : Fin 512 → Pass α → Action Memory (Pass α)} (a : PhysicalAddress)
    (hvisit : ∀ i p m₀, Triple A.codec
      (fun m => m = m₀ ∧ i = l.index p.cursor ∧ Ready S s plan start J l a p m) (visit i p)
      (Done S s plan J K l l.shift p.cursor m₀) (Failed S E))
    (x : Word) (m₀ : Memory) (n : Nat) (p : Pass α) :
    Triple A.codec (Looping S s plan start J K l a x m₀ n p) (slots plan.stop visit n p)
      (Done S s plan J K l (l.shift + 9) x m₀) (Failed S E) := by
  induction n generalizing p with
  | zero =>
    apply Triple.pure
    intro m h
    refine ⟨h.position.intact, h.trail, ?_⟩
    have hinv := h.inv
    by_cases hrun : p.running = true
    · rw [if_pos hrun] at hinv ⊢
      exact ⟨hinv.1.past_of_end, hinv.2⟩
    · rwa [if_neg hrun] at hinv ⊢
  | succ n ih =>
    apply Triple.ite
    · rintro ⟨hrun, hlt⟩
      apply Triple.ghost
      intro m₁
      apply Triple.bind (Q := fun p' m => Looping S s plan start J K l a x m₀ n p' m)
      · refine ((hvisit (Fin.ofNat 512 (511 - n)) p m₁).frame
          (F := Looping S s plan start J K l a x m₀ (n + 1) p m₁)).conseq ?_ ?_ fun _ _ he => he
        · rintro m ⟨rfl, h⟩
          have hinv := h.inv
          rw [if_pos hrun] at hinv
          obtain ⟨hindex, hpath, haligned⟩ := hinv.1.at_slot hlt
          refine ⟨h, rfl, hindex, ⟨h.position.intact, h.position.mem, ?_, ?_⟩, hrun, ?_⟩
          · exact ⟨h.position.inside.le.trans hinv.1.le, hlt, haligned⟩
          · rw [hpath, h.position.arrayAt_eq]
          · rw [hpath]
            exact hinv.2
        · rintro p' m ⟨h, hd⟩
          have hinv := h.inv
          rw [if_pos hrun] at hinv
          obtain ⟨-, hpath, -⟩ := hinv.1.at_slot hlt
          have htrail := hd.trail
          have hafter := hd.inv
          rw [hpath] at htrail hafter
          refine ⟨⟨hd.intact, h.position.mem, h.position.inside, ?_⟩,
            fun q hq => (htrail q hq).trans (h.trail q hq), ?_⟩
          · rw [htrail _ List.suffix_rfl, h.position.arrayAt_eq]
          · by_cases hrun' : p'.running = true
            · rw [if_pos hrun'] at hafter ⊢
              exact ⟨hinv.1.step hlt hafter.1, hafter.2⟩
            · rwa [if_neg hrun'] at hafter ⊢
      · exact ih
    · intro hn
      apply Triple.pure
      intro m h
      refine ⟨h.position.intact, h.trail, ?_⟩
      have hinv := h.inv
      by_cases hrun : p.running = true
      · rw [if_pos hrun] at hinv ⊢
        exact ⟨hinv.1.past_of_stop (Nat.le_of_not_lt fun hlt => hn ⟨hrun, hlt⟩), hinv.2⟩
      · rwa [if_neg hrun] at hinv ⊢

theorem Ready.looping {p : Pass α} (h : Ready S s plan start J l a p m) :
    Looping S s plan start J K l a p.cursor m (512 - l.index p.cursor) p m := by
  refine ⟨h.position, .refl s m _, ?_⟩
  rw [if_pos h.running]
  exact ⟨.refl h.position.inside.aligned, h.inv⟩

theorem array_pte (plan : Plan α) (a : PhysicalAddress) (p : Pass α) : array plan .pte a p =
    slots plan.stop (page plan a) (512 - Level.pte.index p.cursor) p := rfl

theorem array_below (plan : Plan α) (hb : Level.Below child l) (a : PhysicalAddress)
    (p : Pass α) : array plan l a p =
    slots plan.stop (slot plan l child (array plan child) a) (512 - l.index p.cursor) p := by
  cases hb <;> rfl

theorem array_walks (hs : Scope S s plan start) (hk : Keeps S s plan start J K E) :
    ∀ l, Walks S s plan start J K E l (array plan l) := by
  apply Level.ascending
  · intro a p m₀
    rw [array_pte]
    apply (slots_triple a (page_triple hs hk a) p.cursor m₀ _ p).pre
    rintro m ⟨rfl, h⟩
    exact h.looping
  · intro child l hb ih a p m₀
    rw [array_below plan hb]
    apply (slots_triple a (slot_triple hs hk hb ih a) p.cursor m₀ _ p).pre
    rintro m ⟨rfl, h⟩
    exact h.looping

/-- A range lies in one half, so the walk that leaves the root has passed its end. -/
theorem stop_le_of_past {y : Word} (ha : Accepted start plan.stop)
    (hlt : start.toNat < plan.stop.toNat) (h : Past plan.stop (Level.pgd.shift + 9) start y) :
    plan.stop.toNat ≤ y.toNat := by
  have hhalf := ha.half hlt
  have hstop := ha.stop_le
  have hy := h.reach
  simp only [Level.shift] at hy
  omega

/-- An accepted walk ends past the range unless a visit stops it. -/
theorem range_triple (hs : Scope S s plan start) (hk : Keeps S s plan start J K E) (r : α) :
    Triple A.codec (fun m => Intact S m ∧ J [] start r m) (range plan s.root start r)
      (fun r' m => Intact S m ∧
        ((∃ y, plan.stop.toNat ≤ y.toNat ∧ J [] y r' m) ∨ K r' m)) (Failed S E) := by
  unfold range
  rw [accept_eq_ok_iff.mpr hs.accepted]
  apply Triple.bind (Triple.lift (Q := fun _ m => Intact S m ∧ J [] start r m) ?_ nofun)
  · intro _
    apply Triple.bind (Q := fun p m => Intact S m ∧
      if p.running = true then ∃ y, plan.stop.toNat ≤ y.toNat ∧ J [] y p.result m
      else K p.result m)
    · by_cases hlt : start.toNat < plan.stop.toNat
      · apply Triple.ghost
        intro m₀
        refine (array_walks hs hk .pgd s.root ⟨start, r, true⟩ m₀).conseq ?_ ?_ fun _ _ he => he
        · rintro m ⟨rfl, h, hj⟩
          exact ⟨rfl, ⟨h, hs.mem, ⟨Nat.le_refl _, hlt, hs.accepted.aligned⟩, rfl⟩, rfl, hj⟩
        · intro p m h
          refine ⟨h.intact, ?_⟩
          have hinv := h.inv
          by_cases hrun : p.running = true
          · rw [if_pos hrun] at hinv ⊢
            exact ⟨p.cursor, stop_le_of_past hs.accepted hlt hinv.1, hinv.2⟩
          · rwa [if_neg hrun] at hinv ⊢
      · have hn : 512 - (Level.pgd.index start).val = 511 - (Level.pgd.index start).val + 1 := by
          have := (Level.pgd.index start).isLt
          omega
        rw [array_below plan .pud, hn, slots, if_neg fun hc => hlt hc.2]
        apply Triple.pure
        rintro m ⟨h, hj⟩
        exact ⟨h, if_pos rfl ▸ ⟨start, Nat.le_of_not_lt hlt, hj⟩⟩
    · intro p
      apply Triple.pure
      rintro m ⟨h, hinv⟩
      refine ⟨h, ?_⟩
      split at hinv
      · exact Or.inl hinv
      · exact Or.inr hinv
  · exact fun _ _ m hm => hm

theorem range_eq_throw {e : Abort} {root : PhysicalAddress} {r : α}
    (h : accept start plan.stop = .error e) :
    range plan root start r = throw (.abort e) := by
  unfold range
  rw [h]
  rfl

end Walk

end Sandbox
