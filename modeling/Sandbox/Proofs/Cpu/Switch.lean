import Sandbox.Cpu
import Sandbox.Proofs.Tag.Sound

/-! # What a switch does to tags

A switch assigns a tag and drops what its CPU may have cached under it. From then on it only
enters the sandbox and moves registers: the pool, the slots and the epochs that the CPU has
seen stay as they are.
-/

namespace Sandbox

inductive Event.OfRun (cpu : Nat) (owner : OwnerId) (tag : Asid) : Event → Prop
  | enter (root : Word) (frame : TrapFrame) : OfRun cpu owner tag (.enter cpu owner tag root frame)
  | save : OfRun cpu owner tag (.save cpu)
  | load : OfRun cpu owner tag (.load cpu)

namespace Switching

variable {μ : Type} {s t u : Switching μ} {owner : OwnerId} {tag : Asid}

structure Ran (owner : OwnerId) (tag : Asid) (s t : Switching μ) : Prop where
  id : t.cpu.id = s.cpu.id
  epochs : t.cpu.epochs = s.cpu.epochs
  pool : t.tagging.pool = s.tagging.pool
  owners : t.tagging.owners = s.tagging.owners
  failing : t.tagging.trace.failing = s.tagging.trace.failing
  events : ∃ l, t.tagging.trace.events.toList = s.tagging.trace.events.toList ++ l ∧
    ∀ e ∈ l, e.OfRun s.cpu.id owner tag

theorem Ran.refl (s : Switching μ) : Ran owner tag s s :=
  ⟨rfl, rfl, rfl, rfl, rfl, [], by simp, nofun⟩

theorem Ran.trans (h : Ran owner tag s t) (h' : Ran owner tag t u) : Ran owner tag s u := by
  obtain ⟨l, hl, hrun⟩ := h.events
  obtain ⟨l', hl', hrun'⟩ := h'.events
  refine ⟨h'.id.trans h.id, h'.epochs.trans h.epochs, h'.pool.trans h.pool,
    h'.owners.trans h.owners, h'.failing.trans h.failing, l ++ l', ?_, ?_⟩
  · rw [hl', hl, List.append_assoc]
  · intro e he
    rcases List.mem_append.mp he with he | he
    · exact hrun e he
    · exact h.id ▸ hrun' e he

/-- From `s`, the action only runs the space, however it ends. -/
structure Runs {β : Type} (owner : OwnerId) (tag : Asid) (s : Switching μ)
    (act : Action (Switching μ) β) : Prop where
  run : ∀ L, match act ⟨s, L⟩ with
    | .ok _ t => Ran owner tag s t.state
    | .error _ t => Ran owner tag s t.state

namespace Runs

variable {β γ : Type} {act : Action (Switching μ) β} {f : β → Action (Switching μ) γ}

theorem pure (x : β) : Runs owner tag s (Pure.pure x) := ⟨fun _ => .refl s⟩

theorem throw (e : Stop) : Runs owner tag s (MonadExcept.throw e : Action (Switching μ) β) :=
  ⟨fun _ => .refl s⟩

theorem log (r : LogRecord) : Runs owner tag s (Action.log r) := ⟨fun _ => .refl s⟩

theorem update {g : Switching μ → Switching μ} (hg : Ran owner tag s (g s)) :
    Runs owner tag s (Action.update g) :=
  ⟨fun _ => hg⟩

theorem lift (x : Except Abort β) : Runs owner tag s (liftM x : Action (Switching μ) β) := by
  cases x with
  | ok y => exact pure y
  | error a => exact throw _

theorem bind (h : Runs owner tag s act) (hf : ∀ x t, Ran owner tag s t → Runs owner tag t (f x)) :
    Runs owner tag s (act >>= f) := by
  constructor
  intro L
  have ha := h.run L
  cases hact : act ⟨s, L⟩ with
  | error e t =>
    rw [hact] at ha
    rwa [Action.bind_run_error hact]
  | ok x t =>
    rw [hact] at ha
    rw [Action.bind_run hact]
    have hx := (hf x t.state ha).run t.log
    cases hfx : f x ⟨t.state, t.log⟩ with
    | ok y u =>
      rw [hfx] at hx
      exact ha.trans hx
    | error e u =>
      rw [hfx] at hx
      exact ha.trans hx

theorem read_bind {f : Switching μ → Action (Switching μ) γ} (h : Runs owner tag s (f s)) :
    Runs owner tag s (Action.read >>= f) :=
  ⟨fun L => h.run L⟩

theorem ite {p : Prop} [Decidable p] {act' : Action (Switching μ) β} (h : Runs owner tag s act)
    (h' : Runs owner tag s act') : Runs owner tag s (if p then act else act') := by
  split
  · exact h
  · exact h'

theorem ran_final {act' : Action (Switching μ) β} {x : Switching μ} {L : Array LogRecord}
    (h : Runs owner tag s act) (heq : act' ⟨x, #[]⟩ = act ⟨s, L⟩) :
    Ran owner tag s (act'.final x) := by
  have hr := h.run L
  unfold Action.final
  rw [heq]
  cases hact : act ⟨s, L⟩ with
  | ok y t => rwa [hact] at hr
  | error e t => rwa [hact] at hr

end Runs

/-! ## The tag of a switch -/

theorem seen_see (c : Cpu μ) (a : Assignment) (t : Asid) :
    (c.see a).seen t = if a.tag = t then some a.epoch else c.seen t := by
  rw [Cpu.see, Cpu.seen, Std.ExtTreeMap.getElem?_insert]
  simp only [Std.LawfulEqOrd.compare_eq_iff_eq]
  rfl

theorem Ran.seen_eq (h : Ran owner tag s t) (g : Asid) : t.cpu.seen g = s.cpu.seen g := by
  rw [Cpu.seen, h.epochs, Cpu.seen]

/-- The state in which a switch begins to run its space, once the pool has made the assignment
`a` and ended in `x`. -/
def prepared (s : Switching μ) (a : Assignment) (x : Tagging) (flush : Bool) : Switching μ :=
  { s with
    cpu := s.cpu.see a
    tagging := if flush ∨ s.cpu.seen a.tag ≠ some a.epoch then
      x.noted (.flush (.onCpu (some s.cpu.id)) a.tag (x.owners.holders a.tag)) else x }

@[simp] theorem pool_prepared (s : Switching μ) (a : Assignment) (x : Tagging) (flush : Bool) :
    (s.prepared a x flush).tagging.pool = x.pool := by
  unfold prepared
  split <;> rfl

@[simp] theorem owners_prepared (s : Switching μ) (a : Assignment) (x : Tagging) (flush : Bool) :
    (s.prepared a x flush).tagging.owners = x.owners := by
  unfold prepared
  split <;> rfl

@[simp] theorem failing_prepared (s : Switching μ) (a : Assignment) (x : Tagging) (flush : Bool) :
    (s.prepared a x flush).tagging.trace.failing = x.trace.failing := by
  unfold prepared
  split <;> rfl

theorem events_prepared (s : Switching μ) (a : Assignment) (x : Tagging) (flush : Bool) :
    (s.prepared a x flush).tagging.trace.events.toList = x.trace.events.toList ++
      if flush ∨ s.cpu.seen a.tag ≠ some a.epoch then
        [.flush (.onCpu (some s.cpu.id)) a.tag (x.owners.holders a.tag)] else [] := by
  unfold prepared
  split
  · exact Array.toList_push
  · exact (List.append_nil _).symm

theorem onTagging_run {α : Type} {act : Action Tagging α} {L L' : Array LogRecord} {y : α}
    {x : Tagging} (h : act ⟨s.tagging, L⟩ = .ok y ⟨x, L'⟩) :
    onTagging act ⟨s, L⟩ = .ok y ⟨{ s with tagging := x }, L'⟩ := by
  unfold onTagging Action.on
  rw [h]

theorem onTagging_run_error {α : Type} {act : Action Tagging α} {L L' : Array LogRecord} {e : Stop}
    {x : Tagging} (h : act ⟨s.tagging, L⟩ = .error e ⟨x, L'⟩) :
    onTagging act ⟨s, L⟩ = .error e ⟨{ s with tagging := x }, L'⟩ := by
  unfold onTagging Action.on
  rw [h]

theorem prepareTag_run {a : Assignment} {x : Tagging} {b : Bool} {L L' : Array LogRecord}
    (h : Tagging.assign owner ⟨s.tagging, L⟩ = .ok a ⟨x, L'⟩)
    (hret : b ∨ s.cpu.seen a.tag ≠ some a.epoch →
      a.tag ∉ x.trace.failing (.onCpu (some s.cpu.id))) :
    prepareTag owner b ⟨s, L⟩ = .ok a.tag ⟨s.prepared a x b, L'⟩ := by
  unfold prepareTag prepared
  refine (Action.bind_run (onTagging_run h)).trans ((Action.bind_run rfl).trans ?_)
  refine (Action.bind_run rfl).trans ?_
  dsimp only
  by_cases hflush : b ∨ s.cpu.seen a.tag ≠ some a.epoch
  · rw [if_pos hflush, if_pos hflush]
    exact (Action.bind_run (onTagging_run (Tagging.flush_run (hret hflush)))).trans rfl
  · rw [if_neg hflush, if_neg hflush]
    rfl

/-- The flush on the own CPU does not return. The epoch is noted by then. -/
theorem prepareTag_run_failing {a : Assignment} {x : Tagging} {b : Bool} {L L' : Array LogRecord}
    (h : Tagging.assign owner ⟨s.tagging, L⟩ = .ok a ⟨x, L'⟩)
    (hflush : b ∨ s.cpu.seen a.tag ≠ some a.epoch)
    (hfail : a.tag ∈ x.trace.failing (.onCpu (some s.cpu.id))) :
    prepareTag owner b ⟨s, L⟩ =
      .error (.abort (.flushFailed a.tag)) ⟨s.prepared a x b, L'⟩ := by
  unfold prepareTag prepared
  refine (Action.bind_run (onTagging_run h)).trans ((Action.bind_run rfl).trans ?_)
  refine (Action.bind_run rfl).trans ?_
  dsimp only
  rw [if_pos hflush, if_pos hflush]
  exact Action.bind_run_error (onTagging_run_error (Tagging.flush_run_failing hfail))

theorem prepareTag_run_stuck {e : Stop} {x : Tagging} {b : Bool} {L L' : Array LogRecord}
    (h : Tagging.assign owner ⟨s.tagging, L⟩ = .error e ⟨x, L'⟩) :
    prepareTag owner b ⟨s, L⟩ = .error e ⟨{ s with tagging := x }, L'⟩ :=
  Action.bind_run_error (onTagging_run_error h)

/-! ## The parts of a run -/

theorem runs_updateCpu {g : Cpu μ → Cpu μ} (hid : (g s.cpu).id = s.cpu.id)
    (hepochs : (g s.cpu).epochs = s.cpu.epochs) : Runs owner tag s (updateCpu g) :=
  .update ⟨hid, hepochs, rfl, rfl, rfl, [], by simp, nofun⟩

theorem runs_note {e : Event} (he : e.OfRun s.cpu.id owner tag) : Runs owner tag s (note e) :=
  .update ⟨rfl, rfl, rfl, rfl, rfl, [e], by simp, fun _ h => List.mem_singleton.mp h ▸ he⟩

theorem runs_onMachine {α : Type} (act : MachineAction μ α) : Runs owner tag s (onMachine act) := by
  unfold onMachine
  refine .read_bind ?_
  cases act s.cpu.machine with
  | ok x m => exact .bind (runs_updateCpu rfl rfl) fun _ _ _ => .pure x
  | error a m => exact .bind (runs_updateCpu rfl rfl) fun _ _ _ => .throw _

theorem runs_arm (fp : Sstatus.FpStatus) : Runs owner tag s (arm fp) :=
  runs_updateCpu rfl rfl

theorem runs_leave : Runs owner tag s leave := by
  unfold leave
  refine .read_bind ?_
  refine .bind (.update ⟨rfl, rfl, rfl, rfl, rfl, [], by simp, nofun⟩) fun _ _ _ => ?_
  refine .bind (.log _) fun _ _ _ => ?_
  exact .bind (runs_updateCpu rfl rfl) fun _ _ _ => .pure _

variable [Hardware μ]

theorem runs_enter (root : Word) : Runs owner tag s (enter owner tag root) := by
  unfold enter
  refine .bind (runs_updateCpu rfl rfl) fun _ t _ => .read_bind ?_
  refine .bind (runs_note (.enter root _)) fun _ _ _ => ?_
  exact .bind (runs_onMachine _) fun _ _ _ => runs_updateCpu rfl rfl

theorem runs_loadFp : Runs owner tag s loadFp := by
  unfold loadFp
  refine .read_bind (.bind (.log _) fun _ t h => ?_)
  refine .bind (runs_note (h.id ▸ .load)) fun _ _ _ => ?_
  refine .bind (runs_onMachine _) fun _ _ _ => ?_
  exact .bind (runs_updateCpu rfl rfl) fun _ _ _ => runs_arm _

theorem runs_saveFp : Runs owner tag s saveFp := by
  unfold saveFp
  refine .read_bind (.bind (runs_note .save) fun _ _ _ => ?_)
  refine .bind (runs_onMachine _) fun _ _ _ => ?_
  refine .bind (.update ⟨rfl, rfl, rfl, rfl, rfl, [], by simp, nofun⟩) fun _ _ _ => ?_
  exact runs_updateCpu rfl rfl

theorem runs_runSandbox (root : Word) : Runs owner tag s (runSandbox owner tag root) := by
  unfold runSandbox
  refine .bind (runs_enter root) fun _ t _ => .read_bind (.ite ?_ (.pure _))
  exact .bind runs_loadFp fun _ _ _ => runs_enter root

/-! ## Whole switches -/

variable {A : Architecture}

def proceed (space : AddressSpace A) (tag : Asid) (flush : Bool) : Action (Switching μ) Exit := do
  let root ← space.rootWord ((← Action.read).tagging.owners.tag space.owner) (!flush)
  updateCpu fun c => { c with root := some root, tag := some tag }
  Action.update fun s => { s with cpu.frame := s.context.registers }
  arm .off
  runSandbox space.owner tag root
  if (← Action.read).cpu.fpDirty then
    saveFp
  leave

theorem runs_proceed (space : AddressSpace A) (flush : Bool) :
    Runs space.owner tag s (proceed space tag flush) := by
  unfold proceed
  refine .read_bind (.bind (.lift _) fun root _ _ => ?_)
  refine .bind (runs_updateCpu rfl rfl) fun _ _ _ => ?_
  refine .bind (.update ⟨rfl, rfl, rfl, rfl, rfl, [], by simp, nofun⟩) fun _ _ _ => ?_
  refine .bind (runs_arm _) fun _ _ _ => .bind (runs_runSandbox root) fun _ _ _ => ?_
  exact .read_bind (.ite (.bind runs_saveFp fun _ _ _ => runs_leave) runs_leave)

theorem run_eq (space : AddressSpace A) (flush : Bool) (h : s.cpu.mode = .supervisor)
    (L : Array LogRecord) : run space flush ⟨s, L⟩ =
      (prepareTag space.owner flush >>= fun tag => proceed space tag flush) ⟨s, L⟩ := by
  unfold run
  refine (Action.bind_run rfl).trans ?_
  dsimp only
  rw [if_neg (not_not_intro h)]
  rfl

theorem run_of_sandboxed (space : AddressSpace A) (flush : Bool)
    (h : s.cpu.mode ≠ .supervisor) (L : Array LogRecord) :
    run space flush ⟨s, L⟩ = .error (.abort (.alreadySandboxed s.cpu.id)) ⟨s, L⟩ := by
  unfold run
  refine (Action.bind_run rfl).trans ?_
  dsimp only
  rw [if_pos h]
  rfl

theorem run_final_of_sandboxed (space : AddressSpace A) (flush : Bool)
    (h : s.cpu.mode ≠ .supervisor) : (run space flush).final s = s := by
  rw [Action.final, run_of_sandboxed space flush h]

/-- How far a switch gets: to the assignment, to the flush on its own CPU, or beyond. From there on
it only runs the space, however that ends. -/
inductive Fares (s : Switching μ) (owner : OwnerId) (flush : Bool) : Switching μ → Prop
  | stuck {e : Stop} {x : Tagging} (hx : s.tagging.Assigns owner (.error e) x) :
      Fares s owner flush { s with tagging := x }
  | cut {a : Assignment} {x : Tagging} (hx : s.tagging.Assigns owner (.ok a) x)
      (hflush : flush ∨ s.cpu.seen a.tag ≠ some a.epoch)
      (hfail : a.tag ∈ s.tagging.trace.failing (.onCpu (some s.cpu.id))) :
      Fares s owner flush (s.prepared a x flush)
  | ran {a : Assignment} {x : Tagging} {t : Switching μ} (hx : s.tagging.Assigns owner (.ok a) x)
      (hret : flush ∨ s.cpu.seen a.tag ≠ some a.epoch →
        a.tag ∉ s.tagging.trace.failing (.onCpu (some s.cpu.id)))
      (hran : Ran owner a.tag (s.prepared a x flush) t) : Fares s owner flush t

theorem run_fares {T : List Asid} (space : AddressSpace A) (flush : Bool)
    (hmode : s.cpu.mode = .supervisor) (hs : s.tagging.Sound T)
    (ho : s.tagging.owners.isLive space.owner = true) :
    Fares s space.owner flush ((run space flush).final s) := by
  have hrun := run_eq space flush hmode #[]
  rcases hs.assign_run ho #[] with ⟨a, x, L', ha, hx⟩ | ⟨e, x, L', he, hx⟩
  · by_cases hcut : (flush ∨ s.cpu.seen a.tag ≠ some a.epoch) ∧
        a.tag ∈ s.tagging.trace.failing (.onCpu (some s.cpu.id))
    · have hprep := prepareTag_run_failing ha hcut.1 (hx.failing_eq ▸ hcut.2)
      rw [Action.final, hrun, Action.bind_run_error hprep]
      exact .cut hx hcut.1 hcut.2
    · have hret : flush ∨ s.cpu.seen a.tag ≠ some a.epoch →
          a.tag ∉ s.tagging.trace.failing (.onCpu (some s.cpu.id)) :=
        fun hflush hfail => hcut ⟨hflush, hfail⟩
      have hprep := prepareTag_run (b := flush) ha (hx.failing_eq ▸ hret)
      refine .ran hx hret ((runs_proceed space flush).ran_final (L := L') ?_)
      exact hrun.trans (Action.bind_run hprep)
  · rw [Action.final, hrun, Action.bind_run_error (prepareTag_run_stuck he)]
    exact .stuck hx

end Switching

end Sandbox
