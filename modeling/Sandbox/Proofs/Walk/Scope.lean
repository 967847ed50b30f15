import Sandbox.Proofs.Tree.Edit

/-! # Scope of a walk

A walk over a range of one space either changes nothing or edits a tree that nothing else
shares. What such a walk preserves is said once, by what each of its steps preserves.
-/

namespace Sandbox

namespace Walk

variable {α : Type} {A : Architecture}

structure Inside (start stop x : Word) : Prop where
  le : start.toNat ≤ x.toNat
  lt : x.toNat < stop.toNat
  aligned : x.toNat % 4096 = 0

/-- A cursor that moved on from `x` is at the end of its block of `2 ^ k` bytes, or past
the end of the range within that block. -/
structure Past (stop : Word) (k : Nat) (x y : Word) : Prop where
  le : x.toNat ≤ y.toNat
  bound : y.toNat ≤ (x.toNat / 2 ^ k + 1) * 2 ^ k
  reach : stop.toNat ≤ y.toNat ∨ y.toNat = (x.toNat / 2 ^ k + 1) * 2 ^ k

theorem Past.aligned {stop x y : Word} {k : Nat} (h : Past stop k x y) (hk : 12 ≤ k)
    (hlt : y.toNat < stop.toNat) : y.toNat % 4096 = 0 := by
  rcases h.reach with hr | hr
  · omega
  · obtain ⟨n, rfl⟩ := Nat.exists_eq_add_of_le hk
    rw [hr, pow_add, Nat.mul_left_comm]
    exact Nat.mul_mod_right _ _

theorem Past.same_block {stop x y z : Word} {k : Nat} (h : Past stop k x y)
    (hx : x.toNat ≤ z.toNat) (hz : z.toNat < y.toNat) :
    z.toNat / 2 ^ k = x.toNat / 2 ^ k := by
  have hlow : x.toNat / 2 ^ k ≤ z.toNat / 2 ^ k := Nat.div_le_div_right hx
  have hhigh : z.toNat / 2 ^ k < x.toNat / 2 ^ k + 1 :=
    (Nat.div_lt_iff_lt_mul (Nat.two_pow_pos k)).mpr (Nat.lt_of_lt_of_le hz h.bound)
  omega

theorem Past.lt {start stop x y : Word} {k : Nat} (h : Past stop k x y)
    (hi : Inside start stop x) : x.toNat < y.toNat := by
  have hblock : x.toNat < (x.toNat / 2 ^ k + 1) * 2 ^ k :=
    (Nat.div_lt_iff_lt_mul (Nat.two_pow_pos _)).mp (Nat.lt_succ_self _)
  have hlt := hi.lt
  rcases h.reach with hreach | hreach <;> omega

theorem Past.nextBlock {start stop x : Word} (hi : Inside start stop x)
    (hstop : stop.toNat ≤ 2 ^ 64 - 4096) (l : Level) :
    Past stop l.shift x (nextBlock x l.size) := by
  have hlt : x.toNat < (x.toNat / 2 ^ l.shift + 1) * 2 ^ l.shift :=
    (Nat.div_lt_iff_lt_mul (Nat.two_pow_pos _)).mp (Nat.lt_succ_self _)
  have hs := hi.lt
  constructor <;> rw [toNat_nextBlock] <;> split <;> omega

theorem Inside.add {start stop x : Word} (hi : Inside start stop x)
    (hstop : stop.toNat ≤ 2 ^ 64 - 4096) :
    Word.add x pageSize = .ok (x + pageSize) ∧ (x + pageSize).toNat = x.toNat + 4096 := by
  have hlt := hi.lt
  have hsum : x.toNat + pageSize.toNat < 2 ^ 64 := by rw [toNat_pageSize]; omega
  rw [Word.add, Word.add?_eq, if_pos hsum, BitVec.toNat_add, Nat.mod_eq_of_lt hsum]
  exact ⟨rfl, rfl⟩

theorem Inside.past {start stop x : Word} (hi : Inside start stop x)
    (hstop : stop.toNat ≤ 2 ^ 64 - 4096) :
    Past stop Level.pte.shift x (x + pageSize) := by
  have ha := hi.aligned
  have hadd := (hi.add hstop).2
  change Past stop 12 x _
  constructor <;> rw [hadd] <;> omega

structure Plan.ReadOnly (plan : Plan α) : Prop where
  reclaim : plan.reclaim = false
  allocates : plan.visitor.allocates = false
  entry : ∀ x w r v, plan.visitor.visit x w r = .ok v → v.entry = none

/-- The range lies in root slots of the space's own, and no other space shares them. -/
structure Editable (S : List (AddressSpace A)) (s : AddressSpace A) (start stop : Word) :
    Prop where
  unshared : AddressSpace.Unshared S s
  ownsSlot : ∀ x, Inside start stop x → s.OwnsSlot (Level.pgd.index x)

/-- Walks that keep memory intact. -/
structure Scope (S : List (AddressSpace A)) (s : AddressSpace A) (plan : Plan α)
    (start : Word) : Prop where
  codec_eq : plan.codec = A.codec
  mem : s ∈ S
  accepted : Accepted start plan.stop
  leaves : ∀ x w r v w', plan.visitor.visit x w r = .ok v → v.entry = some w' →
    w' = 0 ∨ A.codec.IsLeaf w'
  editable : plan.ReadOnly ∨ Editable S s start plan.stop

/-- The walk has come to the slot of its cursor in an array of some level. -/
structure At (S : List (AddressSpace A)) (s : AddressSpace A) (start stop : Word) (m : Memory)
    (l : Level) (a : PhysicalAddress) (x : Word) : Prop where
  intact : Intact S m
  mem : s ∈ S
  inside : Inside start stop x
  arrayAt_eq : s.arrayAt m (l.path x) = some a

variable {S : List (AddressSpace A)} {s : AddressSpace A} {plan : Plan α} {start stop x : Word}
  {m : Memory} {l child : Level} {a b : PhysicalAddress}

theorem Scope.editable_of_allocates (h : Scope S s plan start)
    (ha : plan.visitor.allocates = true) : Editable S s start plan.stop := by
  refine h.editable.resolve_left fun hr => ?_
  rw [hr.allocates] at ha
  cases ha

theorem Scope.editable_of_reclaim (h : Scope S s plan start) (ha : plan.reclaim = true) :
    Editable S s start plan.stop := by
  refine h.editable.resolve_left fun hr => ?_
  rw [hr.reclaim] at ha
  cases ha

theorem Scope.editable_of_entry (h : Scope S s plan start) {w w' : Word} {r : α} {v : Visit α}
    (hv : plan.visitor.visit x w r = .ok v) (he : v.entry = some w') :
    Editable S s start plan.stop := by
  refine h.editable.resolve_left fun hr => ?_
  rw [hr.entry _ _ _ _ hv] at he
  cases he

namespace At

theorem mem_live (h : At S s start stop m l a x) : a ∈ m.live :=
  h.intact.mem_live_of_arrayAt h.mem (by simpa using l.depth_le) h.arrayAt_eq

theorem site (h : At S s start stop m l a x) (he : Editable S s start stop) :
    Site S m s (l.path x) a (l.index x) := by
  have hslot := AddressSpace.ownsPath_singleton.mpr (he.ownsSlot x h.inside)
  have hpage : s.OwnsPath (pagePath x) := by
    simpa [pagePath, Level.path, AddressSpace.ownsPath_cons] using hslot
  have hsuf : l.index x :: l.path x <:+ pagePath x := by
    cases l with
    | pte => exact List.suffix_rfl
    | pmd => exact Level.pte.path_suffix_pagePath x
    | pud => exact Level.pmd.path_suffix_pagePath x
    | pgd => exact Level.pud.path_suffix_pagePath x
  exact ⟨h.intact, h.mem, he.unshared,
    ⟨AddressSpace.ownsPath_of_suffix hpage (l.path_suffix_pagePath x),
      by simpa using l.depth_le, h.arrayAt_eq⟩,
    AddressSpace.ownsPath_of_suffix hpage hsuf⟩

theorem arrayAt_below (h : At S s start stop m child b x) (hb : Level.Below child l) :
    s.arrayAt m (l.index x :: l.path x) = some b := by
  rw [← hb.path_eq]
  exact h.arrayAt_eq

/-- Above the leaves, a valid entry points at the array of the next level. -/
theorem pointer (h : At S s start stop m l a x) (hb : Level.Below child l)
    (hv : A.codec.isValid (m.entry a (l.index x)) = true) :
    ∃ b, A.codec.IsPointer (m.entry a (l.index x)) b ∧ At S s start stop m child b x := by
  rcases h.intact.pointers_of_arrayAt h.mem (hb.length_path_lt x) h.arrayAt_eq (l.index x) with
    h0 | ⟨b, hp⟩
  · rw [h0, A.lawful.isValid_zero] at hv
    cases hv
  · refine ⟨b, hp, h.intact, h.mem, h.inside, ?_⟩
    rw [hb.path_eq, AddressSpace.arrayAt_cons, h.arrayAt_eq, Option.bind_some,
      hp.child?_eq A.lawful]

end At

def After (J : List (Fin 512) → Word → α → Memory → Prop) (K : α → Memory → Prop)
    (x : Word) (v : Visit α) (m : Memory) : Prop :=
  if v.proceed = true then J (Level.pte.path x) (x + pageSize) v.result m else K v.result m

theorem After.and {J J' : List (Fin 512) → Word → α → Memory → Prop} {K K' : α → Memory → Prop}
    {v : Visit α} (h : After J K x v m) (h' : After J' K' x v m) :
    After (fun p x r m => J p x r m ∧ J' p x r m) (fun r m => K r m ∧ K' r m) x v m := by
  unfold After at *
  split
  · next hgo =>
    rw [if_pos hgo] at h h'
    exact ⟨h, h'⟩
  · next hgo =>
    rw [if_neg hgo] at h h'
    exact ⟨h, h'⟩

/-- Each step of the walk preserves `J`, which may depend on the path of the array that is
being walked and on the cursor. `K` holds when a visit stops the walk, `E` when the walk
fails. -/
structure Keeps (S : List (AddressSpace A)) (s : AddressSpace A) (plan : Plan α) (start : Word)
    (J : List (Fin 512) → Word → α → Memory → Prop) (K : α → Memory → Prop)
    (E : Stop → Memory → Prop) : Prop where
  skip : ∀ {m l a x y r}, At S s start plan.stop m l a x → plan.visitor.allocates = false →
    A.codec.isValid (m.entry a (l.index x)) = false → Past plan.stop l.shift x y →
    J (l.path x) x r m → J (l.path x) y r m
  visit : ∀ {m a x r v}, At S s start plan.stop m .pte a x →
    (A.codec.isValid (m.entry a (Level.pte.index x)) = true ∨ plan.visitor.allocates = true) →
    plan.visitor.visit x (m.entry a (Level.pte.index x)) r = .ok v → v.entry = none →
    J (Level.pte.path x) x r m → After J K x v m
  write : ∀ {m a x r v w}, At S s start plan.stop m .pte a x →
    Site S m s (Level.pte.path x) a (Level.pte.index x) →
    (A.codec.isValid (m.entry a (Level.pte.index x)) = true ∨ plan.visitor.allocates = true) →
    plan.visitor.visit x (m.entry a (Level.pte.index x)) r = .ok v → v.entry = some w →
    J (Level.pte.path x) x r m → After J K x v (m.setEntry a (Level.pte.index x) w)
  abort : ∀ {m a x r e}, At S s start plan.stop m .pte a x →
    (A.codec.isValid (m.entry a (Level.pte.index x)) = true ∨ plan.visitor.allocates = true) →
    plan.visitor.visit x (m.entry a (Level.pte.index x)) r = .error e →
    J (Level.pte.path x) x r m → E (.abort e) m
  full : ∀ {m l child a x r}, Level.Below child l → At S s start plan.stop m l a x →
    plan.visitor.allocates = true → A.codec.isValid (m.entry a (l.index x)) = false →
    m.limitReached = true → J (l.path x) x r m → E (.refusal .outOfMemory) m
  attach : ∀ {m l child a x r w}, Level.Below child l → At S s start plan.stop m l a x →
    Site S m s (l.path x) a (l.index x) → plan.visitor.allocates = true →
    A.codec.isValid (m.entry a (l.index x)) = false → m.limitReached = false →
    m.nextArray ∉ m.live → A.codec.IsPointer w m.nextArray → J (l.path x) x r m →
    J (child.path x) x r (m.attach a (l.index x) w)
  enter : ∀ {m l child a b x r}, Level.Below child l → At S s start plan.stop m l a x →
    At S s start plan.stop m child b x → J (l.path x) x r m → J (child.path x) x r m
  leave : ∀ {m l child a b x y r}, Level.Below child l → At S s start plan.stop m l a x →
    At S s start plan.stop m child b x → Past plan.stop l.shift x y →
    (plan.reclaim = false ∨ plan.visitor.allocates = true ∨ ¬ Site.Vacant m A.codec b) →
    J (child.path x) y r m → J (l.path x) y r m
  detach : ∀ {m l child a b x y r}, Level.Below child l → At S s start plan.stop m l a x →
    Site S m s (l.path x) a (l.index x) → At S s start plan.stop m child b x →
    plan.reclaim = true → Past plan.stop l.shift x y → Site.Vacant m A.codec b →
    J (child.path x) y r m → J (l.path x) y r (m.detach a (l.index x) b)

theorem Keeps.and {J J' : List (Fin 512) → Word → α → Memory → Prop} {K K' : α → Memory → Prop}
    {E E' : Stop → Memory → Prop} (h : Keeps S s plan start J K E)
    (h' : Keeps S s plan start J' K' E') :
    Keeps S s plan start (fun p x r m => J p x r m ∧ J' p x r m) (fun r m => K r m ∧ K' r m)
      (fun e m => E e m ∧ E' e m) where
  skip ha hal hv hp hj := ⟨h.skip ha hal hv hp hj.1, h'.skip ha hal hv hp hj.2⟩
  visit ha hval hv he hj := .and (h.visit ha hval hv he hj.1) (h'.visit ha hval hv he hj.2)
  write ha hs hval hv he hj :=
    .and (h.write ha hs hval hv he hj.1) (h'.write ha hs hval hv he hj.2)
  abort ha hval hv hj := ⟨h.abort ha hval hv hj.1, h'.abort ha hval hv hj.2⟩
  full hb ha hal hv hf hj := ⟨h.full hb ha hal hv hf hj.1, h'.full hb ha hal hv hf hj.2⟩
  attach hb ha hs hal hv hr hn hw hj :=
    ⟨h.attach hb ha hs hal hv hr hn hw hj.1, h'.attach hb ha hs hal hv hr hn hw hj.2⟩
  enter hb ha hc hj := ⟨h.enter hb ha hc hj.1, h'.enter hb ha hc hj.2⟩
  leave hb ha hc hp hk hj := ⟨h.leave hb ha hc hp hk hj.1, h'.leave hb ha hc hp hk hj.2⟩
  detach hb ha hs hc hr hp hv hj :=
    ⟨h.detach hb ha hs hc hr hp hv hj.1, h'.detach hb ha hs hc hr hp hv hj.2⟩

end Walk

end Sandbox
