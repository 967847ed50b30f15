import Sandbox.Proofs.Walk.Rule

/-! # What walks leave alone

A walk is put together from a few operations on memory, and what all of them keep to, the walk
keeps to. So a walk that neither writes nor allocates nor releases leaves the memory exactly as
it was, however it ends and whatever the memory holds. A walk that only does not allocate leaves
alone what the allocator has handed out so far. No walk depends on what was logged before it.
-/

namespace Sandbox

namespace Action

variable {σ τ β γ : Type}

/-- A property of actions that a sequence has if its parts have it. -/
structure Closed (T : ∀ ⦃β : Type⦄, Action σ β → Prop) : Prop where
  pure : ∀ {β : Type} (x : β), T (Pure.pure x : Action σ β)
  throw : ∀ {β : Type} (e : Stop), T (MonadExcept.throw e : Action σ β)
  read : T (Action.read : Action σ σ)
  log : ∀ r, T (Action.log r : Action σ Unit)
  bind : ∀ {β γ : Type} {act : Action σ β} {f : β → Action σ γ}, T act → (∀ x, T (f x)) →
    T (act >>= f)

namespace Closed

variable {T : ∀ ⦃β : Type⦄, Action σ β → Prop} {act act' : Action σ β} {f : β → Action σ γ}

theorem lift (h : Closed T) (x : Except Abort β) : T (liftM x : Action σ β) := by
  cases x with
  | ok y => exact h.pure y
  | error a => exact h.throw (.abort a)

theorem bind_lift (h : Closed T) {x : Except Abort β} (hf : ∀ y, x = .ok y → T (f y)) :
    T (liftM x >>= f : Action σ γ) := by
  cases x with
  | ok y => exact hf y rfl
  | error a => exact h.throw (.abort a)

theorem ite {p : Prop} [Decidable p] (ht : p → T act) (hf : ¬ p → T act') :
    T (if p then act else act') := by
  split
  · exact ht ‹_›
  · exact hf ‹_›

end Closed

structure Leaves (part : σ → τ) (act : Action σ β) : Prop where
  part_eq : ∀ s, match act s with
    | .ok _ t => part t.state = part s.state
    | .error _ t => part t.state = part s.state

namespace Leaves

variable {part : σ → τ} {act : Action σ β} {f : β → Action σ γ}

theorem pure (x : β) : Leaves part (Pure.pure x : Action σ β) := ⟨fun _ => rfl⟩

theorem throw (e : Stop) : Leaves part (MonadExcept.throw e : Action σ β) := ⟨fun _ => rfl⟩

theorem read : Leaves part (Action.read : Action σ σ) := ⟨fun _ => rfl⟩

theorem log (r : LogRecord) : Leaves part (Action.log r : Action σ Unit) := ⟨fun _ => rfl⟩

theorem update {g : σ → σ} (h : ∀ x, part (g x) = part x) :
    Leaves part (Action.update g : Action σ Unit) := ⟨fun s => h s.state⟩

theorem bind (h : Leaves part act) (hf : ∀ x, Leaves part (f x)) : Leaves part (act >>= f) := by
  constructor
  intro s
  have ha := h.part_eq s
  cases hact : act s with
  | error e t =>
    rw [hact] at ha
    rwa [bind_run_error hact]
  | ok x t =>
    rw [hact] at ha
    rw [bind_run hact]
    have hx := (hf x).part_eq t
    cases hfx : f x t with
    | ok y u =>
      rw [hfx] at hx
      exact hx.trans ha
    | error e u =>
      rw [hfx] at hx
      exact hx.trans ha

theorem closed (part : σ → τ) : Closed fun _ act => Leaves part act :=
  ⟨pure, throw, read, log, bind⟩

theorem lift (x : Except Abort β) : Leaves part (liftM x : Action σ β) :=
  (closed part).lift x

theorem ite {p : Prop} [Decidable p] {act' : Action σ β} (ht : p → Leaves part act)
    (hf : ¬ p → Leaves part act') : Leaves part (if p then act else act') :=
  Closed.ite (T := fun _ act => Leaves part act) ht hf

theorem final_eq (h : Leaves part act) (x : σ) : part (act.final x) = part x := by
  have hs := h.part_eq ⟨x, #[]⟩
  unfold final
  cases hact : act ⟨x, #[]⟩ with
  | ok y t => rwa [hact] at hs
  | error e t => rwa [hact] at hs

end Leaves

/-- How an action ends does not depend on what was logged before. -/
structure Oblivious (act : Action σ β) : Prop where
  run : ∀ x log, match act ⟨x, log⟩ with
    | .ok y t => act.outcome x = .ok y ∧ act.final x = t.state
    | .error e t => act.outcome x = .error e ∧ act.final x = t.state

namespace Oblivious

variable {act : Action σ β} {f : β → Action σ γ}

theorem run_ok (h : Oblivious act) {s t : Logged σ} {y : β} (hy : act s = .ok y t) :
    act.outcome s.state = .ok y ∧ act.final s.state = t.state := by
  have hr := h.run s.state s.log
  rwa [hy] at hr

theorem run_error (h : Oblivious act) {s t : Logged σ} {e : Stop} (he : act s = .error e t) :
    act.outcome s.state = .error e ∧ act.final s.state = t.state := by
  have hr := h.run s.state s.log
  rwa [he] at hr

theorem bind_eq (act : Action σ β) (hf : ∀ y, Oblivious (f y)) (x : σ) :
    ((act >>= f).outcome x, (act >>= f).final x) = match act.outcome x with
      | .ok y => ((f y).outcome (act.final x), (f y).final (act.final x))
      | .error e => (.error e, act.final x) := by
  unfold outcome final
  cases hact : act ⟨x, #[]⟩ with
  | error e t => rw [bind_run_error hact]
  | ok y t =>
    rw [bind_run hact]
    cases hfy : f y t with
    | ok z u =>
      obtain ⟨ho, hfin⟩ := (hf y).run_ok hfy
      exact Prod.ext ho.symm hfin.symm
    | error e u =>
      obtain ⟨ho, hfin⟩ := (hf y).run_error hfy
      exact Prod.ext ho.symm hfin.symm

theorem outcome_bind (act : Action σ β) (hf : ∀ y, Oblivious (f y)) (x : σ) :
    (act >>= f).outcome x = match act.outcome x with
      | .ok y => (f y).outcome (act.final x)
      | .error e => .error e := by
  have h := congrArg Prod.fst (bind_eq act hf x)
  cases hact : act.outcome x with
  | ok y => rwa [hact] at h
  | error e => rwa [hact] at h

theorem closed : Closed fun β (act : Action σ β) => Oblivious act where
  pure _ := ⟨fun _ _ => ⟨rfl, rfl⟩⟩
  throw _ := ⟨fun _ _ => ⟨rfl, rfl⟩⟩
  read := ⟨fun _ _ => ⟨rfl, rfl⟩⟩
  log _ := ⟨fun _ _ => ⟨rfl, rfl⟩⟩
  bind := by
    intro β γ act f h hf
    constructor
    intro x log
    have hbind := Prod.mk.inj (bind_eq act hf x)
    cases hact : act ⟨x, log⟩ with
    | error e t =>
      obtain ⟨ho, hfin⟩ := h.run_error hact
      rw [ho, hfin] at hbind
      rwa [bind_run_error hact]
    | ok y t =>
      obtain ⟨ho, hfin⟩ := h.run_ok hact
      rw [ho, hfin] at hbind
      rw [bind_run hact]
      cases hfy : f y t with
      | ok z u =>
        obtain ⟨ho', hfin'⟩ := (hf y).run_ok hfy
        exact ⟨hbind.1.trans ho', hbind.2.trans hfin'⟩
      | error e u =>
        obtain ⟨ho', hfin'⟩ := (hf y).run_error hfy
        exact ⟨hbind.1.trans ho', hbind.2.trans hfin'⟩

theorem update (g : σ → σ) : Oblivious (Action.update g) := ⟨fun _ _ => ⟨rfl, rfl⟩⟩

end Oblivious

end Action

open Sandbox.Action (Closed)

namespace Memory

/-- What was handed out so far, and from where. -/
def supply (m : Memory) : Nat × Nat × (Nat → PhysicalAddress) :=
  (m.allocations, m.fresh, m.place)

theorem supply_fill {a : PhysicalAddress} {g : Memory → Fin 512 → Word} (l : List (Fin 512))
    (m : Memory) : (l.foldl (fun m i => m.setEntry a i (g m i)) m).supply = m.supply := by
  induction l generalizing m with
  | nil => rfl
  | cons i l ih => exact ih (m.setEntry a i (g m i))

variable {τ : Type} {part : Memory → τ}

theorem leaves_free (h : ∀ m a, part (m.giveBack a) = part m) (a : PhysicalAddress) :
    (free a).Leaves part :=
  .bind .read fun _ => .ite (fun _ => .update fun m => h m a) fun _ => .throw _

end Memory

namespace Walk

variable {α τ : Type} {part : Memory → τ} {plan : Plan α} {l child : Level}
  {T : ∀ ⦃β : Type⦄, Action Memory β → Prop}

structure Plan.Admits (plan : Plan α) (T : ∀ ⦃β : Type⦄, Action Memory β → Prop) : Prop where
  closed : Closed T
  store : ∀ {x w r v w'}, plan.visitor.visit x w r = .ok v → v.entry = some w' →
    ∀ a i, T (Memory.store a i w')
  attach : plan.visitor.allocates = true → T Memory.allocate ∧ ∀ a i w, T (Memory.store a i w)
  detach : plan.reclaim = true → (∀ a i, T (Memory.store a i 0)) ∧ ∀ a, T (Memory.free a)

namespace Plan.Admits

theorem page (h : plan.Admits T) (a : PhysicalAddress) (i : Fin 512) (p : Pass α) :
    T (page plan a i p) := by
  have hmove (v : Visit α) : T (if v.proceed = true then do
      return { p with cursor := ← Word.add p.cursor pageSize, result := v.result }
      else return { p with result := v.result, running := false } : Action Memory (Pass α)) :=
    Closed.ite (fun _ => h.closed.bind (h.closed.lift _) fun _ => h.closed.pure _)
      fun _ => h.closed.pure _
  refine h.closed.bind (h.closed.bind h.closed.read fun _ => h.closed.pure _) fun word => ?_
  apply Closed.ite
  · intro _
    apply h.closed.bind_lift
    intro v hv
    cases hentry : v.entry with
    | none => exact hmove v
    | some w => exact h.closed.bind (h.store hv hentry a i) fun _ => hmove v
  · exact fun _ => h.closed.bind (h.closed.lift _) fun _ => h.closed.pure _

theorem descend (h : plan.Admits T)
    {walkChild : PhysicalAddress → Pass α → Action Memory (Pass α)}
    (hw : ∀ b p, T (walkChild b p)) (a : PhysicalAddress) (i : Fin 512) (word : Word)
    (allocated : Bool) (p : Pass α) : T (descend plan child walkChild a i word allocated p) := by
  have hresolve (b : PhysicalAddress) : T (Memory.resolve b) :=
    h.closed.bind h.closed.read fun _ => Closed.ite (fun _ => h.closed.pure _) fun _ =>
      Closed.ite (fun _ => h.closed.throw _) fun _ => h.closed.throw _
  refine h.closed.bind (hresolve _) fun b => h.closed.bind (hw b p) fun p' => ?_
  apply Closed.ite
  · rintro ⟨-, hreclaim, -⟩
    obtain ⟨hstore, hfree⟩ := h.detach hreclaim
    apply h.closed.bind h.closed.read
    intro _
    exact Closed.ite (fun _ => h.closed.bind (hstore a i) fun _ => h.closed.bind (h.closed.log _)
      fun _ => h.closed.bind (hfree b) fun _ => h.closed.pure _) fun _ => h.closed.pure _
  · exact fun _ => h.closed.pure _

theorem slot (h : plan.Admits T)
    {walkChild : PhysicalAddress → Pass α → Action Memory (Pass α)}
    (hw : ∀ b p, T (walkChild b p)) (a : PhysicalAddress) (i : Fin 512) (p : Pass α) :
    T (slot plan l child walkChild a i p) := by
  refine h.closed.bind (h.closed.bind h.closed.read fun _ => h.closed.pure _) fun word => ?_
  apply Closed.ite
  · exact fun _ => Closed.ite (fun _ => h.descend hw a i word false p) fun _ => h.closed.throw _
  · intro _
    apply Closed.ite
    · intro hal
      obtain ⟨hallocate, hstore⟩ := h.attach hal
      exact h.closed.bind hallocate fun b => h.closed.bind (h.closed.lift _) fun w =>
        h.closed.bind (hstore a i w) fun _ => h.closed.bind (h.closed.log _) fun _ =>
          h.descend hw a i w true p
    · exact fun _ => h.closed.pure _

theorem slots (h : plan.Admits T) {stop : Word}
    {visit : Fin 512 → Pass α → Action Memory (Pass α)} (hv : ∀ i p, T (visit i p)) (n : Nat)
    (p : Pass α) : T (slots stop visit n p) := by
  induction n generalizing p with
  | zero => exact h.closed.pure p
  | succ n ih => exact Closed.ite (fun _ => h.closed.bind (hv _ p) ih) fun _ => h.closed.pure p

theorem array (h : plan.Admits T) :
    ∀ (l : Level) (a : PhysicalAddress) (p : Pass α), T (array plan l a p) := by
  apply Level.ascending
  · exact fun a p => h.slots (h.page a) _ p
  · intro child l hb ih a p
    rw [array_below plan hb]
    exact h.slots (h.slot ih a) _ p

theorem range (h : plan.Admits T) (root : PhysicalAddress) (start : Word) (r : α) :
    T (range plan root start r) :=
  h.closed.bind (h.closed.lift _) fun _ => h.closed.bind (h.array .pgd root _) fun _ =>
    h.closed.pure _

end Plan.Admits

structure Plan.Leaves (plan : Plan α) (part : Memory → τ) : Prop where
  allocates : plan.visitor.allocates = false
  entry : ∀ x w r v, plan.visitor.visit x w r = .ok v →
    v.entry = none ∨ ∀ m a i w', part (m.setEntry a i w') = part m
  reclaim : plan.reclaim = true →
    (∀ m a i w', part (m.setEntry a i w') = part m) ∧ ∀ m a, part (m.giveBack a) = part m

theorem Plan.ReadOnly.leaves (h : plan.ReadOnly) : plan.Leaves id where
  allocates := h.allocates
  entry _ _ _ _ hv := Or.inl (h.entry _ _ _ _ hv)
  reclaim hr := by
    rw [h.reclaim] at hr
    cases hr

theorem Plan.leaves_supply (h : plan.visitor.allocates = false) : plan.Leaves Memory.supply where
  allocates := h
  entry _ _ _ _ _ := Or.inr fun _ _ _ _ => rfl
  reclaim _ := ⟨fun _ _ _ _ => rfl, fun _ _ => rfl⟩

theorem Plan.Leaves.admits (h : plan.Leaves part) :
    plan.Admits fun _ act => act.Leaves part where
  closed := Action.Leaves.closed part
  store hv hentry a i :=
    .update fun m => ((h.entry _ _ _ _ hv).resolve_left (by rw [hentry]; nofun)) m a i _
  attach hal := by
    rw [h.allocates] at hal
    cases hal
  detach hreclaim := ⟨fun a i => .update fun m => (h.reclaim hreclaim).1 m a i 0,
    Memory.leaves_free (h.reclaim hreclaim).2⟩

theorem leaves_range (h : plan.Leaves part) (root : PhysicalAddress) (start : Word) (r : α) :
    (range plan root start r).Leaves part :=
  h.admits.range root start r

/-- No walk reads the log. -/
theorem oblivious_range (plan : Plan α) (root : PhysicalAddress) (start : Word) (r : α) :
    (range plan root start r).Oblivious := by
  have h : Closed fun β (act : Action Memory β) => act.Oblivious := Action.Oblivious.closed
  have hallocate : Memory.allocate.Oblivious := by
    refine h.bind (h.bind h.read fun _ => Closed.ite (fun _ => h.bind (h.log _) fun _ => h.pure _)
      fun _ => h.bind (.update _) fun _ => h.pure _) fun b => ?_
    cases b with
    | some b => exact h.pure b
    | none => exact h.throw _
  have hfree (b : PhysicalAddress) : (Memory.free b).Oblivious :=
    h.bind h.read fun _ => Closed.ite (fun _ => .update _) fun _ => h.throw _
  exact Plan.Admits.range (T := fun _ act => act.Oblivious)
    ⟨h, fun _ _ _ _ => .update _, fun _ => ⟨hallocate, fun _ _ _ => .update _⟩,
      fun _ => ⟨fun _ _ => .update _, hfree⟩⟩ root start r

end Walk

end Sandbox
