import Sandbox.Proofs.Walk.Books
import Sandbox.Proofs.Walk.Run

/-! # Walks that map alike

Which arrays a walk attaches, and where they lie, does not depend on what it writes into the
leaves. Two walks that map each page of a range, from one memory on, go from place to place
together, and the memories that they leave differ in leaves only.
-/

namespace Sandbox

namespace Memory

variable {A : Architecture} {m m' : Memory} {a b : PhysicalAddress} {i j : Fin 512} {w w' : Word}

def LeafAlike (A : Architecture) (w w' : Word) : Prop :=
  w' = w ∨ A.codec.IsLeaf w ∧ A.codec.IsLeaf w'

theorem LeafAlike.symm (h : LeafAlike A w w') : LeafAlike A w' w :=
  h.imp Eq.symm And.symm

theorem LeafAlike.trans {w'' : Word} (h : LeafAlike A w w') (h' : LeafAlike A w' w'') :
    LeafAlike A w w'' := by
  rcases h with rfl | ⟨hw, hw'⟩
  · exact h'
  · rcases h' with rfl | ⟨-, hw''⟩
    · exact Or.inr ⟨hw, hw'⟩
    · exact Or.inr ⟨hw, hw''⟩

theorem LeafAlike.isValid_eq (h : LeafAlike A w w') : A.codec.isValid w' = A.codec.isValid w := by
  rcases h with rfl | ⟨⟨_, _, hw⟩, _, _, hw'⟩
  · rfl
  · rw [hw.isValid A.lawful, hw'.isValid A.lawful]

theorem LeafAlike.child?_eq (h : LeafAlike A w w') : A.codec.child? w' = A.codec.child? w := by
  rcases h with rfl | ⟨⟨_, _, hw⟩, _, _, hw'⟩
  · rfl
  · have hnone {w : Word} {a : PhysicalAddress} {o : MapOptions} (h : A.codec.IsLeafOf w a o) :
        A.codec.child? w = none := by
      rw [EntryCodec.child?, if_neg]
      rw [EntryCodec.isIntermediate, h.isTable A.lawful, Bool.and_false]
      exact Bool.false_ne_true
    rw [hnone hw, hnone hw']

/-- The memories have the same arrays in the same places, and differ in leaves only. -/
structure Alike (A : Architecture) (m m' : Memory) : Prop where
  books : SameBooks m m'
  entry : ∀ a i, LeafAlike A (m.entry a i) (m'.entry a i)

namespace Alike

theorem refl (A : Architecture) (m : Memory) : Alike A m m :=
  ⟨.refl m, fun _ _ => Or.inl rfl⟩

theorem symm (h : Alike A m m') : Alike A m' m :=
  ⟨h.books.symm, fun a i => (h.entry a i).symm⟩

theorem trans {m'' : Memory} (h : Alike A m m') (h' : Alike A m' m'') : Alike A m m'' :=
  ⟨h.books.trans h'.books, fun a i => (h.entry a i).trans (h'.entry a i)⟩

theorem nextArray_eq (h : Alike A m m') : m'.nextArray = m.nextArray := by
  rw [nextArray, nextArray, h.books.pool, h.books.place, h.books.fresh]

theorem limitReached_eq (h : Alike A m m') : m'.limitReached = m.limitReached := by
  rw [limitReached, limitReached, liveCount, liveCount, h.books.limit, h.books.live]

theorem arrayAt_eq (h : Alike A m m') (s : AddressSpace A) (p : List (Fin 512)) :
    s.arrayAt m' p = s.arrayAt m p := by
  induction p with
  | nil => rfl
  | cons i p ih =>
    rw [AddressSpace.arrayAt_cons, AddressSpace.arrayAt_cons, ih]
    congr 1
    funext a
    exact (h.entry a i).child?_eq

theorem isValid_leafAt_eq (h : Alike A m m') (s : AddressSpace A) (x : Word) :
    A.codec.isValid (s.leafAt m' x) = A.codec.isValid (s.leafAt m x) := by
  unfold AddressSpace.leafAt
  rw [h.arrayAt_eq]
  cases s.arrayAt m (Level.pte.path x) with
  | none => rfl
  | some a => exact (h.entry a _).isValid_eq

theorem setEntry (h : Alike A m m') (hw : LeafAlike A w w') :
    Alike A (m.setEntry a i w) (m'.setEntry a i w') := by
  by_cases ha : a ∈ m.arrays
  · have ha' := (h.books.mem_arrays a).mpr ha
    refine ⟨⟨h.books.live, h.books.pool, h.books.fresh, h.books.place, h.books.limit,
      h.books.allocations, h.books.frees, fun b => ?_⟩, fun b j => ?_⟩
    · rw [mem_arrays_setEntry, mem_arrays_setEntry, h.books.mem_arrays]
    · rw [entry_setEntry ha, entry_setEntry ha']
      split
      · exact hw
      · exact h.entry b j
  · rw [setEntry_of_not_mem ha, setEntry_of_not_mem fun ha' => ha ((h.books.mem_arrays a).mp ha')]
    exact h

theorem handOut (h : Alike A m m') : Alike A m.handOut m'.handOut := by
  have hnext := h.nextArray_eq
  refine ⟨⟨?_, ?_, ?_, h.books.place, h.books.limit, ?_, h.books.frees, fun b => ?_⟩,
    fun b j => ?_⟩
  · rw [Memory.handOut, Memory.handOut, hnext, h.books.live]
  · rw [Memory.handOut, Memory.handOut, h.books.pool]
  · rw [Memory.handOut, Memory.handOut, h.books.pool, h.books.fresh]
  · rw [Memory.handOut, Memory.handOut, h.books.allocations]
  · rw [mem_arrays_handOut, mem_arrays_handOut, hnext, h.books.mem_arrays]
  · rw [entry_handOut, entry_handOut, hnext]
    split
    · exact Or.inl rfl
    · exact h.entry b j

theorem attach (h : Alike A m m') : Alike A (m.attach a i w) (m'.attach a i w) :=
  h.handOut.setEntry (Or.inl rfl)

theorem write (m : Memory) (hold : A.codec.IsLeaf (m.entry a i)) (hw : A.codec.IsLeaf w) :
    Alike A m (m.setEntry a i w) := by
  have h := (refl A m).setEntry (a := a) (i := i) (Or.inr ⟨hold, hw⟩)
  rwa [setEntry_entry] at h

end Alike

end Memory

/-- The visitors map each page that they visit, and whenever the first one does, so does the
second one, whatever the page held. -/
structure Visitor.Shadows {α : Type} (A : Architecture) (v v' : Visitor α) : Prop where
  allocates : v.allocates = true
  allocates' : v'.allocates = true
  visit : ∀ x w w' r r' u, v.visit x w r = .ok u → ∃ u' leaf leaf',
    v'.visit x w' r' = .ok u' ∧ u'.proceed = u.proceed ∧ u.entry = some leaf ∧
      u'.entry = some leaf' ∧ A.codec.IsLeaf leaf ∧ A.codec.IsLeaf leaf'

namespace Walk

open Memory (Alike LeafAlike)

variable {α : Type} {A : Architecture} {s : AddressSpace A} {plan : Plan α} {v : Visitor α}
  {σ σ' : Place α} {f : Finish α}

def Plan.with (plan : Plan α) (v : Visitor α) : Plan α :=
  { plan with visitor := v }

theorem Plan.dealWith_of_allocates (hal : plan.visitor.allocates = true) {l : Level}
    {a : PhysicalAddress} {x : Word} : plan.dealWith l a x σ =
      if l = .pte then plan.visitPage a x σ else plan.goDown a (l.index x) σ := by
  rw [Plan.dealWith, if_neg]
  rw [hal]
  exact fun hskip => Bool.noConfusion hskip.2

/-- Two walks have come to one place, in memories that are alike. -/
structure Place.Alike (A : Architecture) (σ σ' : Place α) : Prop where
  path : σ'.path = σ.path
  page : σ'.page = σ.page
  memory : Memory.Alike A σ.memory σ'.memory

/-- Two walks go on together, or both return, unless the first one fails. -/
inductive Together (A : Architecture) : Place α ⊕ Finish α → Place α ⊕ Finish α → Prop
  | go {σ σ' : Place α} (h : σ.Alike A σ') : Together A (.inl σ) (.inl σ')
  | finish {r r' : α} {m m' : Memory} (h : m.Alike A m') :
      Together A (.inr (.ok r, m)) (.inr (.ok r', m'))
  | fail {e : Stop} {m : Memory} {τ : Place α ⊕ Finish α} : Together A (.inr (.error e, m)) τ

theorem visitPage_together (hv : plan.visitor.Shadows A v) (h : σ.Alike A σ')
    (a : PhysicalAddress) (x : Word) :
    Together A (plan.visitPage a x σ) ((plan.with v).visitPage a x σ') := by
  unfold Plan.visitPage
  dsimp only
  cases hu : plan.visitor.visit x (σ.memory.entry a (Level.pte.index x)) σ.result with
  | error e => exact .fail
  | ok u =>
    obtain ⟨u', leaf, leaf', hu', hgo, he, he', hl, hl'⟩ := hv.visit x _
      (σ'.memory.entry a (Level.pte.index x)) _ σ'.result u hu
    have hmemory : (σ.memory.setEntry a (Level.pte.index x) leaf).Alike A
        (σ'.memory.setEntry a (Level.pte.index x) leaf') := h.memory.setEntry (Or.inr ⟨hl, hl'⟩)
    simp only [Plan.with, hu']
    rw [he, he', hgo, h.path, h.page]
    split
    · exact .go ⟨rfl, rfl, hmemory⟩
    · exact .finish hmemory

theorem goDown_together (hcodec : plan.codec = A.codec) (h : σ.Alike A σ') (a : PhysicalAddress)
    (i : Fin 512) : Together A (plan.goDown a i σ) ((plan.with v).goDown a i σ') := by
  have hvalid : plan.codec.isValid (σ'.memory.entry a i) =
      plan.codec.isValid (σ.memory.entry a i) := by
    rw [hcodec]
    exact (h.memory.entry a i).isValid_eq
  simp only [Plan.goDown, Plan.with, hvalid, h.memory.limitReached_eq, h.memory.nextArray_eq,
    h.path, h.page]
  split
  · exact .go ⟨rfl, rfl, h.memory⟩
  · split
    · exact .fail
    · split
      · exact .go ⟨rfl, rfl, h.memory.attach⟩
      · exact .fail

theorem dealWith_together (hcodec : plan.codec = A.codec) (hv : plan.visitor.Shadows A v)
    (h : σ.Alike A σ') (l : Level) (a : PhysicalAddress) (x : Word) :
    Together A (plan.dealWith l a x σ) ((plan.with v).dealWith l a x σ') := by
  rw [Plan.dealWith_of_allocates hv.allocates, Plan.dealWith_of_allocates hv.allocates']
  by_cases hl : l = .pte
  · rw [if_pos hl, if_pos hl]
    exact visitPage_together hv h a x
  · rw [if_neg hl, if_neg hl]
    exact goDown_together hcodec h a (l.index x)

theorem goUp_together (hv : plan.visitor.Shadows A v) (h : σ.Alike A σ') (b : PhysicalAddress) :
    Together A (plan.goUp s b σ) ((plan.with v).goUp s b σ') := by
  unfold Plan.goUp
  rw [h.path, h.page]
  cases σ.path with
  | nil => exact .finish h.memory
  | cons i p =>
    -- Walks that allocate give nothing back.
    simp only [Plan.with, hv.allocates, hv.allocates', Bool.not_true, Bool.and_false,
      Bool.false_and, Bool.false_eq_true, if_false]
    exact .go ⟨rfl, rfl, h.memory⟩

theorem next_together (hcodec : plan.codec = A.codec) (hv : plan.visitor.Shadows A v)
    (h : σ.Alike A σ') : Together A (plan.next s σ) ((plan.with v).next s σ') := by
  unfold Plan.next
  rw [h.memory.arrayAt_eq, h.path, h.page]
  cases s.arrayAt σ.memory σ.path with
  | none => exact .finish h.memory
  | some a =>
    dsimp only
    by_cases hgo : σ.page < plan.stop.toNat ∧
        (Level.atDepth σ.path.length).path (BitVec.ofNat 64 σ.page) = σ.path
    · rw [if_pos hgo, if_pos (show _ < (plan.with v).stop.toNat ∧ _ from hgo)]
      exact dealWith_together hcodec hv h _ a _
    · rw [if_neg hgo, if_neg (show ¬ (_ < (plan.with v).stop.toNat ∧ _) from hgo)]
      exact goUp_together hv h a

/-- If the first walk returns, so does the second one. -/
theorem halts_together {r : α} {m : Memory} (hcodec : plan.codec = A.codec)
    (hv : plan.visitor.Shadows A v) (hf : Halts (plan.next s) σ f) (hok : f = (.ok r, m))
    (h : σ.Alike A σ') :
    ∃ r' m', Halts ((plan.with v).next s) σ' (.ok r', m') ∧ m.Alike A m' := by
  -- A run that returns fails at none of its steps.
  induction hf generalizing σ' with
  | halt hnext =>
    have htogether := next_together (s := s) hcodec hv h
    rw [hnext, hok] at htogether
    generalize hnext' : (plan.with v).next s σ' = τ at htogether
    cases htogether with
    | finish hm => exact ⟨_, _, .halt hnext', hm⟩
  | step hnext _ ih =>
    have htogether := next_together (s := s) hcodec hv h
    rw [hnext] at htogether
    generalize hnext' : (plan.with v).next s σ' = τ at htogether
    cases htogether with
    | go hτ =>
      obtain ⟨r', m', hhalts, hm⟩ := ih hok hτ
      exact ⟨r', m', .step hnext' hhalts, hm⟩

variable {S : List (AddressSpace A)} {start : Word} {m m₀ : Memory}

theorem range_together {r r₁ : α} (hs : Scope S s plan start)
    (hs' : Scope S s (plan.with v) start) (hsweep : plan.visitor.Sweeps A) (hsweep' : v.Sweeps A)
    (hv : plan.visitor.Shadows A v) (hi : Intact S m)
    (hp : ((range plan s.root start r).final m).Placed A.codec)
    (hp' : ((range (plan.with v) s.root start r).final m).Placed A.codec)
    (hok : (range plan s.root start r).outcome m = .ok r₁) :
    (∃ r₂, (range (plan.with v) s.root start r).outcome m = .ok r₂) ∧
      ((range plan s.root start r).final m).Alike A
        ((range (plan.with v) s.root start r).final m) := by
  have hhalts := range_halts hs hsweep hi r hp
  rw [hok] at hhalts
  obtain ⟨r₂, m', hhalts', halike⟩ :=
    halts_together hs.codec_eq hv hhalts rfl ⟨rfl, rfl, .refl A m⟩
  obtain ⟨hout, hfinal⟩ := Prod.mk.inj ((range_halts hs' hsweep' hi r hp').unique hhalts')
  exact ⟨⟨r₂, hout⟩, hfinal ▸ halike⟩

/-! ## Walks that write leaves only -/

/-- A walk over mapped pages that allocates nothing leaves each array where it is, and leaves
where there were leaves. -/
theorem Keeps.alike (hal : plan.visitor.allocates = false)
    (hleaf : ∀ x w r u w', plan.visitor.visit x w r = .ok u → u.entry = some w' →
      A.codec.IsLeaf w')
    (hmapped : ∀ x, Inside start plan.stop x → A.codec.isValid (s.leafAt m₀ x) = true) :
    Keeps S s plan start (fun _ _ _ m => m₀.Alike A m) (fun _ m => m₀.Alike A m)
      (fun _ m => m₀.Alike A m) where
  skip _ _ _ _ hj := hj
  visit _ _ _ _ hj := by
    rw [After, ite_self]
    exact hj
  write := by
    rintro m a x r u w ha - hval hu he hj
    rw [After, ite_self]
    refine hj.trans (Memory.Alike.write m ?_ (hleaf _ _ _ _ _ hu he))
    rw [← ha.leafAt_eq] at hval ⊢
    refine (ha.intact.leafAt_zero_or_leaf ha.mem x).resolve_left fun h0 => ?_
    rw [h0, A.lawful.isValid_zero, hal] at hval
    simp at hval
  abort _ _ _ hj := hj
  full _ _ _ _ _ hj := hj
  attach _ _ _ hal' := by
    rw [hal] at hal'
    cases hal'
  enter _ _ _ hj := hj
  leave _ _ _ _ _ hj := hj
  detach := by
    rintro m l child a b x y r - ha - hc - - hvac hj
    refine absurd hvac (not_vacant_of_valid hc ?_)
    rw [hj.isValid_leafAt_eq]
    exact hmapped x ha.inside

/-! ## Arrays that are not live -/

def Undisturbed (m₀ m : Memory) : Prop :=
  ∀ a, a ∉ m.live → ∀ i, m.entry a i = m₀.entry a i

namespace Undisturbed

variable {m : Memory} {a : PhysicalAddress} {i : Fin 512} {w : Word}

theorem setEntry (h : Undisturbed m₀ m) (ha : a ∈ m.live) :
    Undisturbed m₀ (m.setEntry a i w) := by
  intro b hb j
  have hne : ¬ (b = a ∧ j = i) := fun hc => hb (hc.1 ▸ ha)
  rw [Memory.entry_setEntry_of_ne hne, h b hb]

theorem attach (h : Undisturbed m₀ m) (ha : a ∈ m.live) :
    Undisturbed m₀ (m.attach a i w) := by
  have hhandOut : Undisturbed m₀ m.handOut := by
    intro b hb j
    rw [Memory.mem_live_handOut, not_or] at hb
    rw [Memory.entry_handOut, if_neg hb.1, h b hb.2]
  exact hhandOut.setEntry (Memory.mem_live_handOut.mpr (Or.inr ha))

end Undisturbed

theorem Keeps.undisturbed (m₀ : Memory) :
    Keeps S s plan.keeping start (fun _ _ _ m => Undisturbed m₀ m) (fun _ m => Undisturbed m₀ m)
      (fun _ m => Undisturbed m₀ m) where
  skip _ _ _ _ hj := hj
  visit _ _ _ _ hj := by
    rw [After, ite_self]
    exact hj
  write ha _ _ _ _ hj := by
    rw [After, ite_self]
    exact hj.setEntry ha.mem_live
  abort _ _ _ hj := hj
  full _ _ _ _ _ hj := hj
  attach _ ha _ _ _ _ _ _ hj := hj.attach ha.mem_live
  enter _ _ _ hj := hj
  leave _ _ _ _ _ hj := hj
  detach _ _ _ _ hreclaim := by cases hreclaim

theorem range_undisturbed (hs : Scope S s plan start) (hal : plan.visitor.allocates = true)
    (hsweep : plan.visitor.Sweeps A) (hi : Intact S m) (r : α)
    (hp : ((range plan s.root start r).final m).Placed A.codec) :
    Undisturbed m ((range plan s.root start r).final m) := by
  have hkeeps := (Keeps.pages hs (.mapped hsweep.maps)).and_keeping
    (fun hj z hz hlt => hj hal z hz (hz.lt_seen hlt)) (.undisturbed m)
  have hpre : Intact S m ∧ (plan.visitor.allocates = true → ∀ z, Inside start plan.stop z →
      z.toNat < seen plan.stop start → A.codec.isValid (s.leafAt m z) = true) ∧
      Undisturbed m m := by
    rw [hs.accepted.seen_start]
    exact ⟨hi, fun _ z hz hlt => absurd hz.le (Nat.not_le.mpr hlt), fun _ _ _ => rfl⟩
  have htriple := range_triple hs hkeeps r
  cases hout : (range plan s.root start r).outcome m with
  | error e => exact (htriple.of_error hpre hp hout).2.2
  | ok r' => exact (htriple.of_ok hpre hp hout).2.elim (fun ⟨_, _, _, h⟩ => h) And.right

/-- A walk over mapped pages that allocates nothing writes leaves only. -/
theorem range_alike (hs : Scope S s plan start) (hal : plan.visitor.allocates = false)
    (hleaf : ∀ x w r u w', plan.visitor.visit x w r = .ok u → u.entry = some w' →
      A.codec.IsLeaf w')
    (hmapped : ∀ x, Inside start plan.stop x → A.codec.isValid (s.leafAt m x) = true)
    (hi : Intact S m) (r : α) (hp : ((range plan s.root start r).final m).Placed A.codec) :
    m.Alike A ((range plan s.root start r).final m) ∧
      Undisturbed m ((range plan s.root start r).final m) := by
  have hkeeps := (Keeps.alike (S := S) hal hleaf hmapped).and_keeping
    (fun hj z hz _ => (hj.isValid_leafAt_eq s z).trans (hmapped z hz)) (.undisturbed m)
  have hpre : Intact S m ∧ m.Alike A m ∧ Undisturbed m m :=
    ⟨hi, .refl A m, fun _ _ _ => rfl⟩
  have htriple := range_triple hs hkeeps r
  cases hout : (range plan s.root start r).outcome m with
  | error e => exact (htriple.of_error hpre hp hout).2
  | ok r' => exact (htriple.of_ok hpre hp hout).2.elim (fun ⟨_, _, h⟩ => h) id

end Walk

end Sandbox
