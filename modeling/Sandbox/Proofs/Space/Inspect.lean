import Sandbox.Proofs.Space.Change

/-! # Inspections

Looking at a space changes nothing, and in intact memory it is stopped by nothing but a
range that cannot be walked.
-/

namespace Sandbox

/-- The action leaves the state alone, and a broken tree does not stop it. -/
structure Action.Harmless {σ β : Type} (x : σ) (act : Action σ β) : Prop where
  run : ∀ log, match act ⟨x, log⟩ with
    | .ok _ t => t.state = x
    | .error e t => t.state = x ∧ e.Benign

namespace Action.Harmless

variable {σ β γ : Type} {x : σ} {act : Action σ β} {f : β → Action σ γ}

theorem pure (y : β) : Harmless x (Pure.pure y : Action σ β) := ⟨fun _ => rfl⟩

theorem throw {a : Abort} (h : ¬ a.Broken) :
    Harmless x (MonadExcept.throw (.abort a) : Action σ β) :=
  ⟨fun _ => ⟨rfl, Stop.benign_abort h⟩⟩

theorem bind (h : Harmless x act) (hf : ∀ y, Harmless x (f y)) : Harmless x (act >>= f) := by
  constructor
  intro log
  have ha := h.run log
  cases hact : act ⟨x, log⟩ with
  | error e t =>
    rw [hact] at ha
    rwa [bind_run_error hact]
  | ok y t =>
    rw [hact] at ha
    rw [bind_run hact]
    obtain ⟨z, log'⟩ := t
    obtain rfl : z = x := ha
    exact (hf y).run log'

theorem final_eq (h : Harmless x act) : act.final x = x := by
  have hr := h.run #[]
  unfold final
  cases hact : act ⟨x, #[]⟩ with
  | ok y t => rwa [hact] at hr
  | error e t =>
    rw [hact] at hr
    exact hr.1

theorem benign (h : Harmless x act) {e : Stop} (he : act.outcome x = .error e) : e.Benign := by
  have hr := h.run #[]
  unfold outcome at he
  cases hact : act ⟨x, #[]⟩ with
  | ok y t =>
    rw [hact] at he
    cases he
  | error e' t =>
    rw [hact] at he hr
    cases he
    exact hr.2

end Action.Harmless

namespace AddressSpace

open Sandbox.Action (Harmless)

variable {A : Architecture} {S : List (AddressSpace A)} {s : AddressSpace A} {m : Memory}
  {α : Type} {v : Visitor α} {a : VirtualAddress} {length start stop : Word}

theorem watches_occupied : Watches Visitor.occupied :=
  ⟨rfl, fun _ _ _ => ⟨_, rfl, rfl⟩⟩

/-! ## Looking changes nothing -/

theorem leaves_lookup (s : AddressSpace A) (a : VirtualAddress) : (s.lookup a).Leaves id := by
  cases hstop : Word.add? a.pageBase.word pageSize with
  | none =>
    rw [lookup_last hstop]
    exact .pure none
  | some stop =>
    rw [lookup_eq hstop]
    exact (watches_find A).leaves_inspect s _ _ _

theorem leaves_findFirst (s : AddressSpace A) (L : List (Word × Word)) :
    (s.findFirst L).Leaves id := by
  induction L with
  | nil => exact .pure none
  | cons r L ih =>
    apply Action.Leaves.bind ((watches_find A).leaves_inspect s r.1 r.2 none)
    rintro (_ | t)
    · exact ih
    · exact .pure (some t)

theorem leaves_lookupFirst (s : AddressSpace A) (a : VirtualAddress) :
    (s.lookupFirst a).Leaves id :=
  s.leaves_findFirst _

theorem leaves_isEmpty (s : AddressSpace A) (a : VirtualAddress) (length : Word) :
    (s.isEmpty a length).Leaves id :=
  .bind (.lift _) fun r => .bind (watches_occupied.leaves_inspect s r.1 r.2 false) fun _ => .pure _

/-! ## Lookups in several ranges -/

theorem oblivious_findFirst (s : AddressSpace A) (L : List (Word × Word)) :
    (s.findFirst L).Oblivious := by
  have hclosed : Action.Closed fun β (act : Action Memory β) => act.Oblivious :=
    Action.Oblivious.closed
  induction L with
  | nil => exact hclosed.pure none
  | cons r L ih =>
    refine hclosed.bind (Walk.oblivious_range _ _ _ _) fun found => ?_
    cases found with
    | some t => exact hclosed.pure (some t)
    | none => exact ih

theorem outcome_findFirst (s : AddressSpace A) (m : Memory) (L : List (Word × Word)) :
    (s.findFirst ((start, stop) :: L)).outcome m =
      match (s.inspect (Visitor.find A.codec) start stop none).outcome m with
      | .ok (some t) => .ok (some t)
      | .ok none => (s.findFirst L).outcome m
      | .error e => .error e := by
  refine (Action.Oblivious.outcome_bind _ (fun found => ?_) m).trans ?_
  · cases found with
    | some t => exact Action.Oblivious.closed.pure (some t)
    | none => exact s.oblivious_findFirst L
  rw [(watches_find A).final_inspect]
  cases (s.inspect (Visitor.find A.codec) start stop none).outcome m with
  | error e => rfl
  | ok found => cases found <;> rfl

theorem outcome_isEmpty (s : AddressSpace A) (m : Memory)
    (hb : bounds a length = .ok (start, stop)) : (s.isEmpty a length).outcome m =
      match (s.inspect Visitor.occupied start stop false).outcome m with
      | .ok b => .ok (!b)
      | .error e => .error e := by
  have hnot (b : Bool) : (pure (!b) : Action Memory Bool).Oblivious :=
    Action.Oblivious.closed.pure (!b)
  unfold isEmpty
  rw [hb, Action.lift_ok_bind]
  have hbind := Action.Oblivious.outcome_bind (s.inspect Visitor.occupied start stop false) hnot m
  refine hbind.trans ?_
  cases (s.inspect Visitor.occupied start stop false).outcome m <;> rfl

theorem isEmpty_eq_throw (s : AddressSpace A) {e : Abort} (hb : bounds a length = .error e) :
    s.isEmpty a length = throw (.abort e) := by
  unfold isEmpty
  rw [hb, Action.lift_error_bind]

/-! ## Nothing stops it -/

theorem Watches.pages (hv : Watches v) (start stop : Word) :
    Walk.PageSteps A ⟨A.codec, v, false, stop⟩ start (fun _ _ _ => True) (fun _ _ => True)
      (fun _ _ => False) where
  skip _ _ _ _ := trivial
  visit := by
    intro x r f u _ _ _ _ _
    split <;> trivial
  abort := by
    intro x r f e _ _ _ he _
    obtain ⟨u, hu, -⟩ := hv.visit x (f x) r
    cases he.symm.trans hu
  full := by
    intro x r f _ hal
    rw [hv.allocates] at hal
    cases hal

theorem inspect_harmless (h : Intact S m) (hs : s ∈ S) (hp : m.Placed A.codec) (hv : Watches v)
    (start stop : Word) (r : α) : Harmless m (s.inspect v start stop r) := by
  cases hacc : Walk.accept start stop with
  | error e =>
    unfold inspect
    rw [Walk.range_eq_throw hacc]
    exact .throw (Walk.accept_benign hacc)
  | ok u =>
    have hread := hv.readOnly A stop
    have hscope : Walk.Scope S s ⟨A.codec, v, false, stop⟩ start := by
      refine ⟨rfl, hs, Walk.accept_eq_ok_iff.mp hacc, ?_, Or.inl hread⟩
      intro x w r v w' hv he
      rw [hread.entry _ _ _ _ hv] at he
      cases he
    have htriple := Walk.range_triple hscope (Walk.Keeps.pages hscope (hv.pages start stop)) r
    constructor
    intro log
    have hr := htriple.run ⟨m, log⟩
    have hstate := (hv.leaves_inspect s start stop r).part_eq ⟨m, log⟩
    unfold inspect at hstate ⊢
    cases hact : Walk.range ⟨A.codec, v, false, stop⟩ s.root start r ⟨m, log⟩ with
    | ok y t =>
      rw [hact] at hstate
      exact hstate
    | error e t =>
      rw [hact] at hr hstate
      have hsame : t.state = m := hstate
      exact (hr.2 (hsame.symm ▸ hp) ⟨h, trivial⟩).2.elim

variable (h : Intact S m) (hs : s ∈ S) (hp : m.Placed A.codec)

include h hs hp

theorem lookup_harmless (a : VirtualAddress) : Harmless m (s.lookup a) := by
  cases hstop : Word.add? a.pageBase.word pageSize with
  | none =>
    rw [lookup_last hstop]
    exact .pure none
  | some stop =>
    rw [lookup_eq hstop]
    exact inspect_harmless h hs hp (watches_find A) _ _ _

theorem findFirst_harmless (L : List (Word × Word)) : Harmless m (s.findFirst L) := by
  induction L with
  | nil => exact .pure none
  | cons r L ih =>
    obtain ⟨start, stop⟩ := r
    apply Harmless.bind (inspect_harmless h hs hp (watches_find A) start stop none)
    rintro (_ | t)
    · exact ih
    · exact .pure (some t)

theorem lookupFirst_harmless (a : VirtualAddress) : Harmless m (s.lookupFirst a) :=
  findFirst_harmless h hs hp _

theorem isEmpty_harmless (a : VirtualAddress) (length : Word) :
    Harmless m (s.isEmpty a length) := by
  unfold isEmpty
  cases hb : bounds a length with
  | error e =>
    rw [Action.lift_error_bind, bounds_eq_error hb]
    exact .throw id
  | ok r =>
    rw [Action.lift_ok_bind]
    exact .bind (inspect_harmless h hs hp watches_occupied _ _ _) fun _ => .pure _

end AddressSpace

end Sandbox
