import Sandbox.Proofs.Cpu.Journal

/-! # The entries of a switch

A switch enters the sandbox once, or once more after a first use of the floating-point unit. This
holds in any state of the CPU, even if an earlier switch has left a file unsaved. An entry that
does not come back is the last thing that a switch asks for.
-/

namespace Sandbox

namespace Action

variable {σ β : Type} {act : Action σ β} {s t : Logged σ} {P Q : σ → Prop}

def EndsIn (act : Action σ β) (s : Logged σ) (P : σ → Prop) : Prop :=
  match act s with
  | .ok _ t => P t.state
  | .error _ t => P t.state

theorem EndsIn.final {x : σ} (h : act.EndsIn ⟨x, #[]⟩ P) : P (act.final x) := by
  unfold EndsIn at h
  unfold Action.final
  split at h <;> simp_all

theorem EndsIn.mono (h : act.EndsIn s P) (hPQ : ∀ x, P x → Q x) : act.EndsIn s Q := by
  unfold EndsIn at h ⊢
  split at h <;> simp_all

theorem endsIn_of_ok {y : β} (hrun : act s = .ok y t) (h : P t.state) : act.EndsIn s P := by
  simp only [EndsIn, hrun, h]

theorem endsIn_of_error {e : Stop} (hrun : act s = .error e t) (h : P t.state) :
    act.EndsIn s P := by
  simp only [EndsIn, hrun, h]

theorem EndsIn.of_eq {act' : Action σ β} (h : act.EndsIn s P) (hrun : act' t = act s) :
    act'.EndsIn t P := by
  unfold EndsIn at h ⊢
  rw [hrun]
  exact h

end Action

namespace MachineCall

variable {l l' : List MachineCall}

/-- One of the calls is an entry that has not come back. -/
def Strands (l : List MachineCall) : Prop :=
  ∃ root frame, .enter root frame none ∈ l

@[simp] theorem strands_append : Strands (l ++ l') ↔ Strands l ∨ Strands l' := by
  simp only [Strands, List.mem_append, exists_or]

@[simp] theorem not_strands_nil : ¬ Strands [] := by simp [Strands]

theorem not_strands (h : ∀ call ∈ l, call.isEnter = false) : ¬ Strands l := by
  rintro ⟨root, frame, hmem⟩
  cases h _ hmem

end MachineCall

namespace Journaled

variable {μ α : Type} {act : MachineAction μ α} {call : Option α → MachineCall} {m m' : μ}
  {l : List MachineCall}

theorem record_run {x : α} (h : act m = .ok x m') :
    record act call ⟨m, l⟩ = .ok x ⟨m', l ++ [call (some x)]⟩ := by
  simp only [record, h]

theorem record_run_error {a : Abort} (h : act m = .error a m') :
    record act call ⟨m, l⟩ = .error a ⟨m', l ++ [call none]⟩ := by
  simp only [record, h]

end Journaled

namespace Switching

open MachineCall

variable {A : Architecture} {μ : Type} {s t u : Switching μ} {space : AddressSpace A}
  {flush : Bool} {owner : OwnerId} {tag : Asid} {root : Word} {f₀ : TrapFrame}
  {l l' : List MachineCall}

/-! ## One entry, or two -/

/-- The entries of a switch whose first frame is `f₀`. Only one that has come back with a frame is
followed by another one. -/
inductive Turns (root : Word) (f₀ : TrapFrame) : List MachineCall → Prop
  | once (result : Option TrapFrame) : Turns root f₀ [.enter root f₀ result]
  | twice (r : TrapFrame) (result : Option TrapFrame) :
      Turns root f₀ [.enter root f₀ (some r), .enter root (r.armed .clean) result]

/-- The states in which a switch enters the sandbox: `t`, in which it is ready, and the state
after a first use, in which the file is loaded. -/
inductive EntryState [Hardware μ] (owner : OwnerId) (tag : Asid) (root : Word) (t : Switching μ) :
    Switching μ → Prop
  | first : EntryState owner tag root t t
  | again {r : TrapFrame} {m m₁ : μ}
      (henter : Hardware.enter root t.cpu.frame t.cpu.machine = .ok r m)
      (hfirst : isFirstFpUse (t.trapped owner tag root r m).cpu = true)
      (hload : Hardware.load t.context.fp m = .ok () m₁) :
      EntryState owner tag root t ((t.trapped owner tag root r m).loaded m₁)

def MadeIn [Hardware μ] (owner : OwnerId) (tag : Asid) (root : Word) (t : Switching μ)
    (l : List MachineCall) : Prop :=
  ∀ call ∈ l, call.isEnter = true → ∃ v result, EntryState owner tag root t v ∧
    call = .enter root v.cpu.frame result

structure Keeps {ν : Type} (t : Switching μ) (u : Switching ν) : Prop where
  tag : u.cpu.tag = t.cpu.tag
  root : u.cpu.root = t.cpu.root
  pool : u.tagging.pool = t.tagging.pool
  owners : u.tagging.owners = t.tagging.owners

/-- A switch that was ready in `t` has made these calls and has ended in `u`. -/
structure Entered [Hardware μ] (owner : OwnerId) (tag : Asid) (root : Word) (t : Switching μ)
    (l : List MachineCall) (u : Switching μ) : Prop where
  turns : Turns root t.cpu.frame (l.filter isEnter)
  states : MadeIn owner tag root t l
  mode_iff : u.cpu.mode = .sandboxed ↔ Strands l
  context : Strands l → u.context = t.context
  keeps : t.Keeps u

def journaling (t : Switching μ) (l : List MachineCall) : Switching (Journaled μ) :=
  t.map (Journaled.mk · l)

theorem Keeps.trans {ν ρ : Type} {u : Switching ν} {v : Switching ρ} (h : t.Keeps u)
    (h' : u.Keeps v) : t.Keeps v :=
  ⟨h'.tag.trans h.tag, h'.root.trans h.root, h'.pool.trans h.pool, h'.owners.trans h.owners⟩

theorem Readies.context_eq (h : Readies space flush s tag root t) : t.context = s.context := by
  obtain ⟨s', ⟨epochs, x, rfl⟩, rfl⟩ := h.begun_eq
  rfl

variable [Hardware μ]

theorem finish_saves (u : Switching μ) (l : List MachineCall) (L : Array LogRecord) :
    finish.EndsIn ⟨u.journaling l, L⟩ fun v =>
      v.cpu.mode = u.cpu.mode ∧ u.Keeps v ∧
        ∃ l', v.cpu.machine.calls = l ++ l' ∧ ∀ call ∈ l', call.isEnter = false := by
  cases hd : u.cpu.fpDirty with
  | false =>
    have hleave := finish_run (s := u.journaling l) (L := L) hd
    exact Action.endsIn_of_ok (hleave.trans rfl)
      ⟨rfl, ⟨rfl, rfl, rfl, rfl⟩, [], (List.append_nil l).symm, nofun⟩
  | true =>
    have hsave := finish_run_dirty (s := u.journaling l) (L := L) hd
    cases hfile : Hardware.save u.context.fp u.cpu.machine with
    | error a m =>
      have hrun := hsave.trans (Action.bind_run_error
        (saveFp_run_error (Journaled.record_run_error hfile)))
      exact Action.endsIn_of_error hrun ⟨rfl, ⟨rfl, rfl, rfl, rfl⟩, _, rfl, by simp [isEnter]⟩
    | ok f m =>
      have hrun := hsave.trans (Action.bind_run (saveFp_run (Journaled.record_run hfile)))
      exact Action.endsIn_of_ok (hrun.trans rfl)
        ⟨rfl, ⟨rfl, rfl, rfl, rfl⟩, _, rfl, by simp [isEnter]⟩

@[simp] theorem madeIn_append : MadeIn owner tag root t (l ++ l') ↔
    MadeIn owner tag root t l ∧ MadeIn owner tag root t l' := by
  simp only [MadeIn, List.mem_append, or_imp, forall_and]

theorem EntryState.madeIn (h : EntryState owner tag root t u) (result : Option TrapFrame) :
    MadeIn owner tag root t [.enter root u.cpu.frame result] := by
  rintro call hcall -
  exact ⟨u, result, h, List.mem_singleton.mp hcall⟩

theorem madeIn_of_no_entry (h : ∀ call ∈ l, call.isEnter = false) :
    MadeIn owner tag root t l := by
  intro call hcall henter
  rw [h call hcall] at henter
  cases henter

theorem EntryState.keeps (h : EntryState owner tag root t u) : t.Keeps u := by
  cases h <;> exact ⟨rfl, rfl, rfl, rfl⟩

theorem EntryState.context (h : EntryState owner tag root t u) : u.context = t.context := by
  cases h <;> rfl

theorem EntryState.entered_lost (h : EntryState owner tag root t u) (m : μ)
    (hturns : Turns root t.cpu.frame
      ((l ++ [MachineCall.enter root u.cpu.frame none]).filter isEnter))
    (hstates : MadeIn owner tag root t l) :
    Entered owner tag root t (l ++ [.enter root u.cpu.frame none]) (u.lost owner tag root m) := by
  obtain ⟨htag, hroot, hpool, howners⟩ := h.keeps
  have hstrands : Strands (l ++ [MachineCall.enter root u.cpu.frame none]) :=
    ⟨root, u.cpu.frame, List.mem_append_right l List.mem_cons_self⟩
  exact ⟨hturns, madeIn_append.mpr ⟨hstates, h.madeIn none⟩, iff_of_true rfl hstrands,
    fun _ => h.context, htag, hroot, hpool, howners⟩

theorem entered_back (hturns : Turns root t.cpu.frame (l.filter isEnter))
    (hstates : MadeIn owner tag root t l) (hback : ¬ Strands l)
    (hmode : u.cpu.mode = .supervisor) (hkeeps : t.Keeps u) : Entered owner tag root t l u :=
  ⟨hturns, hstates, iff_of_false (by simp [hmode]) hback, fun hs => absurd hs hback, hkeeps⟩

theorem entered_finish (hturns : Turns root t.cpu.frame (l.filter isEnter))
    (hstates : MadeIn owner tag root t l) (hback : ¬ Strands l)
    (hmode : u.cpu.mode = .supervisor) (hkeeps : t.Keeps u) (L : Array LogRecord) :
    finish.EndsIn ⟨u.journaling l, L⟩ fun v =>
      Entered owner tag root t v.cpu.machine.calls (v.map Journaled.machine) := by
  refine (finish_saves u l L).mono fun v hv => ?_
  obtain ⟨hmode', hkeeps', l', hl', hsaves⟩ := hv
  have hnone : l'.filter isEnter = [] := by simpa using hsaves
  obtain ⟨htag, hroot, hpool, howners⟩ := hkeeps.trans hkeeps'
  rw [hl']
  apply entered_back
  case hturns => simpa [hnone] using hturns
  case hstates => exact madeIn_append.mpr ⟨hstates, madeIn_of_no_entry hsaves⟩
  case hback => simp [hback, not_strands hsaves]
  case hmode => exact hmode'.trans hmode
  case hkeeps => exact ⟨htag, hroot, hpool, howners⟩

/-- From the first entry on, whatever the machine does. -/
theorem entered_of_ready (owner : OwnerId) (tag : Asid) (root : Word) (t : Switching μ)
    (L : Array LogRecord) :
    (runSandbox owner tag root >>= fun _ => finish).EndsIn ⟨t.journaling [], L⟩ fun v =>
      Entered owner tag root t v.cpu.machine.calls (v.map Journaled.machine) := by
  rw [runSandbox_eq]
  have hstart : EntryState owner tag root t t := .first
  cases henter : Hardware.enter root t.cpu.frame t.cpu.machine with
  | error a m =>
    have hrun : turn owner tag root (enter owner tag root) ⟨t.journaling [], L⟩ = _ :=
      turn_run_error (Journaled.record_run_error henter)
    exact Action.endsIn_of_error (Action.bind_run_error hrun)
      (hstart.entered_lost (l := []) m (.once none) nofun)
  | ok r m =>
    have hrecord : Hardware.enter root t.cpu.frame (t.journaling []).cpu.machine =
      .ok r ⟨m, [.enter root t.cpu.frame (some r)]⟩ := Journaled.record_run henter
    by_cases hfirst : isFirstFpUse (t.trapped owner tag root r m).cpu = true
    · have hrun : turn owner tag root (enter owner tag root) ⟨t.journaling [], L⟩ = _ :=
        turn_run_first hrecord hfirst
      have hstates (result : Option Unit) : MadeIn owner tag root t
          [.enter root t.cpu.frame (some r), .load t.context.fp result] :=
        madeIn_append.mpr ⟨hstart.madeIn (some r), madeIn_of_no_entry (by simp [isEnter])⟩
      cases hload : Hardware.load t.context.fp m with
      | error a m₁ =>
        have hstop := hrun.trans (Action.bind_run_error
          (loadFp_run_error (Journaled.record_run_error hload)))
        refine Action.endsIn_of_error (Action.bind_run_error hstop) ?_
        have hback : ¬ Strands
            [.enter root t.cpu.frame (some r), .load t.context.fp none] := by simp [Strands]
        exact entered_back (.once (some r)) (hstates none) hback rfl ⟨rfl, rfl, rfl, rfl⟩
      | ok _ m₁ =>
        have hrecord₁ : Hardware.load t.context.fp
            (⟨m, [.enter root t.cpu.frame (some r)]⟩ : Journaled μ) = .ok () ⟨m₁,
              [.enter root t.cpu.frame (some r), .load t.context.fp (some ())]⟩ :=
          Journaled.record_run hload
        have hthen := hrun.trans (Action.bind_run (loadFp_run hrecord₁))
        have hsecond : EntryState owner tag root t ((t.trapped owner tag root r m).loaded m₁) :=
          .again henter hfirst hload
        cases hagain : Hardware.enter root (r.armed .clean) m₁ with
        | error a m₂ =>
          have hstop := hthen.trans (enter_run_error (Journaled.record_run_error hagain))
          exact Action.endsIn_of_error (Action.bind_run_error hstop)
            (hsecond.entered_lost m₂ (.twice r none) (hstates (some ())))
        | ok r' m₂ =>
          have hdone := hthen.trans (enter_run (Journaled.record_run hagain))
          have hback : ¬ Strands [.enter root t.cpu.frame (some r), .load t.context.fp (some ()),
              .enter root (r.armed .clean) (some r')] := by simp [Strands]
          have hrest := entered_finish
            (u := ((t.trapped owner tag root r m).loaded m₁).trapped owner tag root r' m₂)
            (.twice r (some r')) (madeIn_append.mpr ⟨hstates (some ()), hsecond.madeIn (some r')⟩)
            hback rfl ⟨rfl, rfl, rfl, rfl⟩
          exact (hrest _).of_eq (Action.bind_run hdone)
    · have hrun : turn owner tag root (enter owner tag root) ⟨t.journaling [], L⟩ = _ :=
        turn_run hrecord hfirst
      have hback : ¬ Strands [.enter root t.cpu.frame (some r)] := by simp [Strands]
      have hrest := entered_finish (u := t.trapped owner tag root r m) (.once (some r))
        (hstart.madeIn (some r)) hback rfl ⟨rfl, rfl, rfl, rfl⟩
      exact (hrest _).of_eq (Action.bind_run hrun)

/-! ## Whole switches -/

/-- The calls that a switch has made, and how it has ended: it has found no tag or no root word, or
it has entered. -/
inductive Visits (space : AddressSpace A) (flush : Bool) (s : Switching μ) :
    List MachineCall → Switching μ → Prop
  | unready {u : Switching μ} (hno : ∀ tag root t, ¬ Readies space flush s tag root t)
      (h : Unmoved s u) : Visits space flush s [] u
  | entered {tag : Asid} {root : Word} {t u : Switching μ} {l : List MachineCall}
      (hready : Readies space flush s tag root t) (h : Entered space.owner tag root t l u) :
      Visits space flush s l u

theorem Visits.mode_iff (h : Visits space flush s l u) (hmode : s.cpu.mode = .supervisor) :
    u.cpu.mode = .sandboxed ↔ Strands l := by
  cases h with
  | unready _ hunmoved =>
    obtain ⟨epochs, x, rfl⟩ := hunmoved
    simp [hmode]
  | entered _ h => exact h.mode_iff

theorem Visits.context (h : Visits space flush s l u) (hl : Strands l) : u.context = s.context := by
  cases h with
  | unready => exact absurd hl not_strands_nil
  | entered hready h => exact (h.context hl).trans hready.context_eq

theorem run_visits (space : AddressSpace A) (flush : Bool) (hmode : s.cpu.mode = .supervisor) :
    Visits space flush s (s.calls space flush) ((run space flush).final s) := by
  have hrun := run_eq (s := s.opened) space flush hmode #[]
  have hfollow := follows_prepareTag (f := (Journaled.mk · [])) space.owner flush ⟨s, #[]⟩
  rw [calls, ← final_opened s]
  suffices h : (run space flush).EndsIn ⟨s.opened, #[]⟩ fun v =>
      Visits space flush s v.cpu.machine.calls (v.map Journaled.machine) from h.final
  cases prepares space flush s with
  | stuck hprep hno hunmoved =>
    rw [hprep] at hfollow
    exact Action.endsIn_of_error (hrun.trans (Action.bind_run_error hfollow))
      (.unready hno hunmoved)
  | rootless hprep hroot hno hunmoved =>
    rw [hprep] at hfollow
    have hthen := hrun.trans (Action.bind_run hfollow)
    exact Action.endsIn_of_error (hthen.trans (proceed_run_stuck hroot)) (.unready hno hunmoved)
  | @ready tag root s' L hprep hroot hunmoved =>
    rw [hprep] at hfollow
    have hthen := hrun.trans (Action.bind_run hfollow)
    have hready : Readies space flush s tag root (s'.begun tag root) :=
      ⟨s', L, hprep, hroot, rfl⟩
    have hentered := entered_of_ready space.owner tag root (s'.begun tag root) L
    exact (hentered.mono fun v hv => .entered hready hv).of_eq (hthen.trans (proceed_run hroot))

theorem calls_of_sandboxed (space : AddressSpace A) (flush : Bool)
    (hmode : s.cpu.mode ≠ .supervisor) : s.calls space flush = [] := by
  rw [calls, run_final_of_sandboxed (s := s.opened) space flush hmode]
  rfl

end Switching

end Sandbox
