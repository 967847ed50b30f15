import Sandbox.Proofs.Walk.Run

/-! # Ranges in two parts

A walk over a range does what a walk over its first pages and then one over the rest do. The
first one stops at a place of the whole run, and the second one gets to that place from the root.
Between them the result starts anew, so the visitor must not care for what was found before.
-/

namespace Sandbox

/-- The visitor does the same whatever was found before, and adds what it finds. -/
def Visitor.Gathers (v : Visitor Bool) : Prop :=
  ∀ x w r r', v.visit x w (r || r') = (v.visit x w r').map fun u => { u with result := r || u.result }

namespace Walk

variable {A : Architecture} {S : List (AddressSpace A)} {s : AddressSpace A} {plan : Plan Bool}
  {start : Word} {m : Memory} {σ : Place Bool} {f : Finish Bool}

def Place.raise (r : Bool) (σ : Place Bool) : Place Bool :=
  { σ with result := r || σ.result }

def Finish.raise (r : Bool) (f : Finish Bool) : Finish Bool :=
  (f.1.map (r || ·), f.2)

@[simp] theorem Place.raise_memory (σ : Place Bool) (r : Bool) : (σ.raise r).memory = σ.memory :=
  rfl

@[simp] theorem Place.raise_path (σ : Place Bool) (r : Bool) : (σ.raise r).path = σ.path :=
  rfl

@[simp] theorem Place.raise_page (σ : Place Bool) (r : Bool) : (σ.raise r).page = σ.page :=
  rfl

theorem visitPage_raise (hv : plan.visitor.Gathers) (a : PhysicalAddress) (x : Word) (r : Bool)
    (σ : Place Bool) : plan.visitPage a x (σ.raise r) =
      (plan.visitPage a x σ).map (Place.raise r) (Finish.raise r) := by
  unfold Plan.visitPage
  dsimp only [Place.raise]
  rw [hv]
  cases plan.visitor.visit x (σ.memory.entry a (Level.pte.index x)) σ.result with
  | error e => rfl
  | ok u =>
    dsimp only [Except.map]
    split <;> rfl

theorem goDown_raise (plan : Plan Bool) (a : PhysicalAddress) (i : Fin 512) (r : Bool)
    (σ : Place Bool) : plan.goDown a i (σ.raise r) =
      (plan.goDown a i σ).map (Place.raise r) (Finish.raise r) := by
  unfold Plan.goDown
  dsimp only [Place.raise]
  split
  · rfl
  · split
    · rfl
    · split <;> rfl

theorem goUp_raise (plan : Plan Bool) (s : AddressSpace A) (b : PhysicalAddress) (r : Bool)
    (σ : Place Bool) : plan.goUp s b (σ.raise r) =
      (plan.goUp s b σ).map (Place.raise r) (Finish.raise r) := by
  unfold Plan.goUp
  dsimp only [Place.raise]
  split <;> rfl

theorem next_raise (hv : plan.visitor.Gathers) (s : AddressSpace A) (r : Bool) (σ : Place Bool) :
    plan.next s (σ.raise r) = (plan.next s σ).map (Place.raise r) (Finish.raise r) := by
  have hdeal (l : Level) (a : PhysicalAddress) (x : Word) : plan.dealWith l a x (σ.raise r) =
      (plan.dealWith l a x σ).map (Place.raise r) (Finish.raise r) := by
    unfold Plan.dealWith
    rw [visitPage_raise hv, goDown_raise]
    simp only [apply_ite (Sum.map _ _)]
    rfl
  unfold Plan.next
  simp only [Place.raise_memory, Place.raise_path, Place.raise_page]
  cases s.arrayAt σ.memory σ.path with
  | none => rfl
  | some a =>
    dsimp only
    rw [hdeal, goUp_raise, apply_ite (Sum.map _ _)]
    rfl

theorem halts_raise (hv : plan.visitor.Gathers) (h : Halts (plan.next s) σ f) (r : Bool) :
    Halts (plan.next s) (σ.raise r) (f.raise r) := by
  induction h with
  | halt h => exact .halt (by rw [next_raise hv, h]; rfl)
  | step h _ ih => exact .step (by rw [next_raise hv, h]; rfl) ih

/-- The whole does what its parts do one after the other, and finds what one of them finds. -/
structure Splits (whole first second : Action Memory Bool) (m : Memory) : Prop where
  failed : ∀ e, first.outcome m = .error e →
    whole.outcome m = .error e ∧ whole.final m = first.final m
  returned : ∀ r, first.outcome m = .ok r →
    whole.outcome m = (second.outcome (first.final m)).map (r || ·) ∧
      whole.final m = second.final (first.final m)

namespace Splits

variable {whole first second : Action Memory Bool} {e : Stop} {r : Bool}

theorem ok_iff (h : Splits whole first second m) : whole.outcome m = .ok r ↔
    ∃ r₁ r₂, first.outcome m = .ok r₁ ∧ second.outcome (first.final m) = .ok r₂ ∧
      r = (r₁ || r₂) := by
  cases hfirst : first.outcome m with
  | error e =>
    rw [(h.failed e hfirst).1]
    constructor
    · exact nofun
    · rintro ⟨r₁, r₂, hr₁, -⟩
      cases hr₁
  | ok r₁ =>
    rw [(h.returned r₁ hfirst).1]
    cases hsecond : second.outcome (first.final m) with
    | error e =>
      constructor
      · exact nofun
      · rintro ⟨r₁', r₂, -, hr₂, -⟩
        cases hr₂
    | ok r₂ =>
      constructor
      · intro hr
        exact ⟨r₁, r₂, rfl, rfl, (Except.ok.inj hr).symm⟩
      · rintro ⟨r₁', r₂', hr₁, hr₂, rfl⟩
        cases hr₁
        cases hr₂
        rfl

theorem error_iff (h : Splits whole first second m) : whole.outcome m = .error e ↔
    first.outcome m = .error e ∨
      ∃ r, first.outcome m = .ok r ∧ second.outcome (first.final m) = .error e := by
  cases hfirst : first.outcome m with
  | error e' =>
    rw [(h.failed e' hfirst).1]
    exact (or_iff_left fun ⟨_, hr, _⟩ => nomatch hr).symm
  | ok r₁ =>
    rw [(h.returned r₁ hfirst).1]
    cases hsecond : second.outcome (first.final m) with
    | error e' =>
      constructor
      · intro he
        exact Or.inr ⟨r₁, rfl, congrArg Except.error (Except.error.inj he)⟩
      · rintro (he | ⟨r, -, he⟩)
        · cases he
        · exact congrArg Except.error (Except.error.inj he)
    | ok r₂ =>
      constructor
      · exact nofun
      · rintro (he | ⟨r, -, he⟩)
        · cases he
        · cases he

end Splits

theorem range_splits {s : AddressSpace A} {mid : Word} (hs : Scope S s plan start)
    (hfirst : Scope S s (plan.upTo mid) start) (hsecond : Scope S s plan mid)
    (haligned : mid.toNat % 4096 = 0) (hlt : mid.toNat < plan.stop.toNat)
    (hsweep : plan.visitor.Sweeps A) (hgather : plan.visitor.Gathers) (hi : Intact S m)
    (hp : ((range plan s.root start false).final m).Placed A.codec)
    (hp' : ((range (plan.upTo mid) s.root start false).final m).Placed A.codec)
    (hp'' : ∀ r, (range (plan.upTo mid) s.root start false).outcome m = .ok r →
      ((range plan s.root mid false).final
        ((range (plan.upTo mid) s.root start false).final m)).Placed A.codec) :
    Splits (range plan s.root start false) (range (plan.upTo mid) s.root start false)
      (range plan s.root mid false) m := by
  have hwhole := range_halts hs hsweep hi false hp
  obtain ⟨hok, herror⟩ := range_endsAs mid hs hfirst (Or.inr ⟨haligned, hlt⟩) hsweep hi false hp'
  constructor
  · intro e he
    exact Prod.mk.inj (hwhole.unique (herror e he))
  · intro r hr
    obtain ⟨hi', hends⟩ := hok r hr
    have hmid : pageEnd mid = mid.toNat := by
      unfold pageEnd
      omega
    have hrest := halts_raise hgather (range_halts hsecond hsweep hi' false (hp'' r hr)) r
    rw [Place.raise, Bool.or_false, ← hmid] at hrest
    exact Prod.mk.inj (hwhole.unique (hends _ hrest))

end Walk

end Sandbox
