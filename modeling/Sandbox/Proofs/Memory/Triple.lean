import Sandbox.Proofs.Entry.Laws
import Sandbox.Memory

/-! # Triples

A triple says what an action on memory ensures when it returns and when it stops early.
Fresh arrays are assumed to lie at distinct aligned addresses that fit the codec; the
assumption is made once, for the memory in which the action ends.
-/

namespace Sandbox

namespace Action

variable {σ β : Type}

def outcome (act : Action σ β) (x : σ) : Except Stop β :=
  match act ⟨x, #[]⟩ with
  | .ok y _ => .ok y
  | .error e _ => .error e

/-- The state in which an action ends, whichever way it ends. -/
def final (act : Action σ β) (x : σ) : σ :=
  match act ⟨x, #[]⟩ with
  | .ok _ t => t.state
  | .error _ t => t.state

@[simp] theorem lift_ok_bind {γ : Type} (x : β) (f : β → Action σ γ) :
    (liftM (Except.ok x : Except Abort β) >>= f : Action σ γ) = f x := rfl

@[simp] theorem lift_error_bind {γ : Type} (e : Abort) (f : β → Action σ γ) :
    (liftM (Except.error e : Except Abort β) >>= f : Action σ γ) = throw (.abort e) := rfl

theorem outcome_eq_ok {act : Action σ β} {x : σ} {y : β} :
    act.outcome x = .ok y ↔ ∃ t, act ⟨x, #[]⟩ = .ok y t := by
  unfold outcome
  cases act ⟨x, #[]⟩ with
  | ok z t => simp
  | error e t => simp

theorem bind_run {γ : Type} {act : Action σ β} {f : β → Action σ γ} {s t : Logged σ} {x : β}
    (h : act s = .ok x t) : (act >>= f) s = f x t := by
  change EStateM.bind act f s = f x t
  unfold EStateM.bind
  rw [h]

theorem bind_run_error {γ : Type} {act : Action σ β} {f : β → Action σ γ} {s t : Logged σ}
    {e : Stop} (h : act s = .error e t) : (act >>= f) s = .error e t := by
  change EStateM.bind act f s = .error e t
  unfold EStateM.bind
  rw [h]

theorem ok_of_bind {γ : Type} {act : Action σ β} {f : β → Action σ γ} {s t : Logged σ} {y : γ}
    (h : (act >>= f) s = .ok y t) : ∃ x u, act s = .ok x u ∧ f x u = .ok y t := by
  cases hact : act s with
  | ok x u =>
    rw [bind_run hact] at h
    exact ⟨x, u, rfl, h⟩
  | error e u =>
    rw [bind_run_error hact] at h
    cases h

theorem ok_of_read_bind {γ : Type} {f : σ → Action σ γ} {s t : Logged σ} {y : γ}
    (h : (read >>= f) s = .ok y t) : f s.state s = .ok y t := h

def replace (f : σ → Except Abort σ) : Action σ Unit := do
  let x ← read
  let y ← f x
  update fun _ => y

variable {f : σ → Except Abort σ} {x y : σ} {e : Abort}

theorem replace_ok (h : f x = .ok y) :
    (replace f).outcome x = .ok () ∧ (replace f).final x = y := by
  have hrun : replace f ⟨x, #[]⟩ = .ok () ⟨y, #[]⟩ := by
    change (liftM (f x) >>= fun y => update fun _ => y) _ = _
    rw [h]
    rfl
  simp [outcome, final, hrun]

theorem replace_error (h : f x = .error e) :
    (replace f).outcome x = .error (.abort e) ∧ (replace f).final x = x := by
  have hrun : replace f ⟨x, #[]⟩ = .error (.abort e) ⟨x, #[]⟩ := by
    change (liftM (f x) >>= fun y => update fun _ => y) _ = _
    rw [h]
    rfl
  simp [outcome, final, hrun]

end Action

namespace Memory

/-- Fresh arrays are only ever added, and their places are fixed. -/
def Before (m m' : Memory) : Prop :=
  m.fresh ≤ m'.fresh ∧ m'.place = m.place

/-- The fresh arrays so far lie at distinct page-aligned addresses that fit the codec. -/
def Placed (c : EntryCodec) (m : Memory) : Prop :=
  ∀ n < m.fresh, (m.place n).isPageAligned = true ∧ c.Fits (m.place n) ∧
    ∀ k < n, m.place k ≠ m.place n

variable {c : EntryCodec} {m m' m'' : Memory}

theorem Before.refl (m : Memory) : m.Before m := ⟨Nat.le_refl _, rfl⟩

theorem Before.trans (h : m.Before m') (h' : m'.Before m'') : m.Before m'' :=
  ⟨Nat.le_trans h.1 h'.1, h'.2.trans h.2⟩

def PlacedLow (m : Memory) : Prop :=
  ∀ n < m.fresh, (m.place n).isPageAligned = true ∧ (m.place n).word.toNat < 2 ^ 48 ∧
    ∀ k < n, m.place k ≠ m.place n

theorem PlacedLow.placed (h : m.PlacedLow) (A : Architecture) : m.Placed A.codec :=
  fun n hn => ⟨(h n hn).1, EntryCodec.fits_of_lt A (h n hn).2.1, (h n hn).2.2⟩

theorem Placed.of_before (h : m'.Placed c) (hb : m.Before m') : m.Placed c := by
  intro n hn
  have := h n (Nat.lt_of_lt_of_le hn hb.1)
  rwa [hb.2] at this

end Memory

/-- From a memory with `P`, the action returns with `Q` or stops early with `E`, as long
as its fresh arrays are well placed. -/
structure Triple {β : Type} (c : EntryCodec) (P : Memory → Prop) (act : Action Memory β)
    (Q : β → Memory → Prop) (E : Stop → Memory → Prop) : Prop where
  run : ∀ s : Logged Memory, match act s with
    | .ok x t => s.state.Before t.state ∧ (t.state.Placed c → P s.state → Q x t.state)
    | .error e t => s.state.Before t.state ∧ (t.state.Placed c → P s.state → E e t.state)

namespace Triple

variable {β γ : Type} {c : EntryCodec} {P P' : Memory → Prop} {Q Q' : β → Memory → Prop}
  {R : γ → Memory → Prop} {E E' : Stop → Memory → Prop} {act : Action Memory β}
  {f : β → Action Memory γ}

theorem before (h : Triple c P act Q E) (m : Memory) : m.Before (act.final m) := by
  have hr := h.run ⟨m, #[]⟩
  unfold Action.final
  cases hact : act ⟨m, #[]⟩ with
  | ok x t => rw [hact] at hr; exact hr.1
  | error e t => rw [hact] at hr; exact hr.1

theorem of_ok (h : Triple c P act Q E) {m : Memory} (hp : P m)
    (hplaced : (act.final m).Placed c) {x : β} (hx : act.outcome m = .ok x) :
    Q x (act.final m) := by
  have hr := h.run ⟨m, #[]⟩
  unfold Action.final at hplaced ⊢
  unfold Action.outcome at hx
  cases hact : act ⟨m, #[]⟩ with
  | ok y t =>
    rw [hact] at hr hplaced hx
    cases hx
    exact hr.2 hplaced hp
  | error e t =>
    rw [hact] at hx
    cases hx

theorem of_error (h : Triple c P act Q E) {m : Memory} (hp : P m)
    (hplaced : (act.final m).Placed c) {e : Stop} (he : act.outcome m = .error e) :
    E e (act.final m) := by
  have hr := h.run ⟨m, #[]⟩
  unfold Action.final at hplaced ⊢
  unfold Action.outcome at he
  cases hact : act ⟨m, #[]⟩ with
  | ok y t =>
    rw [hact] at he
    cases he
  | error e t =>
    rw [hact] at hr hplaced he
    cases he
    exact hr.2 hplaced hp

/-- What holds however the action ends. -/
theorem of_end {G : Memory → Prop} (h : Triple c P act (fun _ => G) (fun _ => G)) {m : Memory}
    (hp : P m) (hplaced : (act.final m).Placed c) : G (act.final m) := by
  cases hact : act.outcome m with
  | ok x => exact h.of_ok hp hplaced hact
  | error e => exact h.of_error hp hplaced hact

theorem pure {x : β} (h : ∀ m, P m → Q x m) : Triple c P (Pure.pure x) Q E :=
  ⟨fun s => ⟨.refl _, fun _ hp => h s.state hp⟩⟩

theorem bind (h : Triple c P act Q E) (hf : ∀ x, Triple c (Q x) (f x) R E) :
    Triple c P (act >>= f) R E := by
  constructor
  intro s
  have ha := h.run s
  cases hact : act s with
  | error e t =>
    rw [hact] at ha
    rwa [Action.bind_run_error hact]
  | ok x t =>
    rw [hact] at ha
    rw [Action.bind_run hact]
    have hx := (hf x).run t
    cases hfx : f x t with
    | ok y u =>
      rw [hfx] at hx
      exact ⟨ha.1.trans hx.1, fun hu hp => hx.2 hu (ha.2 (hu.of_before hx.1) hp)⟩
    | error e u =>
      rw [hfx] at hx
      exact ⟨ha.1.trans hx.1, fun hu hp => hx.2 hu (ha.2 (hu.of_before hx.1) hp)⟩

theorem conseq (h : Triple c P act Q E) (hP : ∀ m, P' m → P m) (hQ : ∀ x m, Q x m → Q' x m)
    (hE : ∀ e m, E e m → E' e m) : Triple c P' act Q' E' := by
  constructor
  intro s
  have ha := h.run s
  cases hact : act s with
  | ok x t =>
    rw [hact] at ha
    exact ⟨ha.1, fun ht hp => hQ _ _ (ha.2 ht (hP _ hp))⟩
  | error e t =>
    rw [hact] at ha
    exact ⟨ha.1, fun ht hp => hE _ _ (ha.2 ht (hP _ hp))⟩

theorem pre (h : Triple c P act Q E) (hP : ∀ m, P' m → P m) : Triple c P' act Q E :=
  h.conseq hP (fun _ _ hq => hq) fun _ _ he => he

theorem post (h : Triple c P act Q E) (hQ : ∀ x m, Q x m → Q' x m) : Triple c P act Q' E :=
  h.conseq (fun _ hp => hp) hQ fun _ _ he => he

theorem error (h : Triple c P act Q E) (hE : ∀ e m, E e m → E' e m) : Triple c P act Q E' :=
  h.conseq (fun _ hp => hp) (fun _ _ hq => hq) hE

/-- A precondition may name the memory that the action starts from. -/
theorem ghost (h : ∀ m, Triple c (fun m' => m' = m ∧ P m') act Q E) : Triple c P act Q E := by
  constructor
  intro s
  have ha := (h s.state).run s
  cases hact : act s with
  | ok x t =>
    rw [hact] at ha
    exact ⟨ha.1, fun ht hp => ha.2 ht ⟨rfl, hp⟩⟩
  | error e t =>
    rw [hact] at ha
    exact ⟨ha.1, fun ht hp => ha.2 ht ⟨rfl, hp⟩⟩

theorem frame {F : Prop} (h : Triple c P act Q E) :
    Triple c (fun m => F ∧ P m) act (fun x m => F ∧ Q x m) E := by
  constructor
  intro s
  have ha := h.run s
  cases hact : act s with
  | ok x t =>
    rw [hact] at ha
    exact ⟨ha.1, fun ht hp => ⟨hp.1, ha.2 ht hp.2⟩⟩
  | error e t =>
    rw [hact] at ha
    exact ⟨ha.1, fun ht hp => ha.2 ht hp.2⟩

theorem read : Triple c P Action.read (fun m' m => m' = m ∧ P m) E :=
  ⟨fun _ => ⟨.refl _, fun _ hp => ⟨rfl, hp⟩⟩⟩

theorem update {g : Memory → Memory} {Q : Unit → Memory → Prop} (hb : ∀ m : Memory, m.Before (g m))
    (h : ∀ m, (g m).Placed c → P m → Q () (g m)) : Triple c P (Action.update g) Q E :=
  ⟨fun s => ⟨hb s.state, fun ht hp => h s.state ht hp⟩⟩

theorem log {r : LogRecord} : Triple c P (Action.log r) (fun _ => P) E :=
  ⟨fun _ => ⟨.refl _, fun _ hp => hp⟩⟩

theorem throw {e : Stop} (h : ∀ m, P m → E e m) :
    Triple c P (MonadExcept.throw e : Action Memory β) Q E :=
  ⟨fun s => ⟨.refl _, fun _ hp => h s.state hp⟩⟩

theorem lift {x : Except Abort β} (hok : ∀ y, x = .ok y → ∀ m, P m → Q y m)
    (herr : ∀ a, x = .error a → ∀ m, P m → E (.abort a) m) :
    Triple c P (liftM x) Q E := by
  cases x with
  | ok y => exact pure (hok y rfl)
  | error a => exact throw (herr a rfl)

theorem ite {p : Prop} [Decidable p] {act' : Action Memory β}
    (ht : p → Triple c P act Q E) (hf : ¬ p → Triple c P act' Q E) :
    Triple c P (if p then act else act') Q E := by
  split
  · exact ht ‹_›
  · exact hf ‹_›

end Triple

end Sandbox
