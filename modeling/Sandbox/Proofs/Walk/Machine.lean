/-! # Machines

A machine goes from state to state until it halts. The next state, or the way in which it halts,
depends on the state alone, so from each state it halts in one way at most. A walk is such a
machine, and so is its course.
-/

namespace Sandbox

variable {σ φ : Type} {next : σ → σ ⊕ φ} {x y z : σ} {f g : φ}

/-- From this state on the machine halts so. -/
inductive Halts (next : σ → σ ⊕ φ) : σ → φ → Prop
  | halt {x : σ} {f : φ} (h : next x = .inr f) : Halts next x f
  | step {x y : σ} {f : φ} (h : next x = .inl y) (hf : Halts next y f) : Halts next x f

theorem Halts.unique (hf : Halts next x f) (hg : Halts next x g) : f = g := by
  induction hf with
  | halt h =>
    cases hg with
    | halt h' => exact Sum.inr.inj (h.symm.trans h')
    | step h' _ => cases h.symm.trans h'
  | step h _ ih =>
    cases hg with
    | halt h' => cases h.symm.trans h'
    | step h' hg' =>
      obtain rfl := Sum.inl.inj (h.symm.trans h')
      exact ih hg'

theorem Halts.of_next (hf : Halts next x f) (h : next x = .inl y) : Halts next y f := by
  cases hf with
  | halt h' => cases h.symm.trans h'
  | step h' hf' =>
    obtain rfl := Sum.inl.inj (h.symm.trans h')
    exact hf'

/-- However the machine halts from the second state, so it does from the first one. -/
def EndsAs (next : σ → σ ⊕ φ) (x y : σ) : Prop :=
  ∀ f, Halts next y f → Halts next x f

namespace EndsAs

theorem refl (next : σ → σ ⊕ φ) (x : σ) : EndsAs next x x :=
  fun _ hf => hf

theorem trans (h : EndsAs next x y) (h' : EndsAs next y z) : EndsAs next x z :=
  fun f hf => h f (h' f hf)

theorem step (h : EndsAs next x y) (hy : next y = .inl z) : EndsAs next x z :=
  fun f hf => h f (.step hy hf)

theorem back (h : EndsAs next x z) (hy : next y = .inl z) : EndsAs next x y :=
  fun f hf => h f (hf.of_next hy)

theorem halt (h : EndsAs next x y) (hy : next y = .inr f) : Halts next x f :=
  h f (.halt hy)

end EndsAs

end Sandbox
