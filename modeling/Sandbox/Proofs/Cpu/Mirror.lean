import Sandbox.Proofs.Cpu.Stay

/-! # Machines that behave alike

A switch knows its machine by the calls that it makes. If one machine, seen through some function,
does in each call what another does, then seen through that function a switch on the one goes as
on the other.
-/

namespace Sandbox

/-- Seen through `f`, the one action does what the other does. -/
def Follows {ε σ τ α : Type} (f : σ → τ) (act : EStateM ε σ α) (act' : EStateM ε τ α) : Prop :=
  ∀ s, act' (f s) = match act s with
    | .ok x t => .ok x (f t)
    | .error e t => .error e (f t)

structure Hardware.Follows {μ ν : Type} [Hardware μ] [Hardware ν] (f : μ → ν) : Prop where
  enter : ∀ root r, Sandbox.Follows f (Hardware.enter root r) (Hardware.enter root r)
  load : ∀ file, Sandbox.Follows f (Hardware.load file) (Hardware.load file)
  save : ∀ file, Sandbox.Follows f (Hardware.save file) (Hardware.save file)

namespace Switching

variable {μ ν α β : Type} {f : μ → ν}

def logged (f : μ → ν) (s : Logged (Switching μ)) : Logged (Switching ν) :=
  ⟨s.state.map f, s.log⟩

section Follows

variable {act : Action (Switching μ) α} {act' : Action (Switching ν) α}

theorem follows_pure (x : α) : Follows (logged f) (pure x : Action (Switching μ) α) (pure x) :=
  fun _ => rfl

theorem follows_throw (e : Stop) :
    Follows (logged f) (throw e : Action (Switching μ) α) (throw e) := fun _ => rfl

theorem follows_log (r : LogRecord) : Follows (logged f) (Action.log r) (Action.log r) :=
  fun _ => rfl

theorem follows_lift (x : Except Abort α) :
    Follows (logged f) (liftM x : Action (Switching μ) α) (liftM x) := by
  cases x with
  | ok y => exact follows_pure y
  | error a => exact follows_throw _

theorem follows_update {g : Switching μ → Switching μ} {g' : Switching ν → Switching ν}
    (h : ∀ s, g' (s.map f) = (g s).map f) :
    Follows (logged f) (Action.update g) (Action.update g') :=
  fun s => congrArg (fun t => EStateM.Result.ok () (Logged.mk t s.log)) (h s.state)

theorem follows_onTagging (act : Action Tagging α) :
    Follows (logged f) (onTagging act) (onTagging act) := by
  intro ⟨s, L⟩
  cases hact : act ⟨s.tagging, L⟩ with
  | ok x t =>
    rw [onTagging_run hact]
    exact onTagging_run hact
  | error e t =>
    rw [onTagging_run_error hact]
    exact onTagging_run_error hact

theorem follows_onMachine {act : MachineAction μ α} {act' : MachineAction ν α}
    (h : Follows f act act') : Follows (logged f) (onMachine act) (onMachine act') := by
  intro ⟨s, L⟩
  have hm := h s.cpu.machine
  cases hact : act s.cpu.machine with
  | ok x m =>
    rw [hact] at hm
    rw [onMachine_run hact]
    exact onMachine_run hm
  | error a m =>
    rw [hact] at hm
    rw [onMachine_run_error hact]
    exact onMachine_run_error hm

theorem follows_bind {k : α → Action (Switching μ) β} {k' : α → Action (Switching ν) β}
    (h : Follows (logged f) act act') (hk : ∀ x, Follows (logged f) (k x) (k' x)) :
    Follows (logged f) (act >>= k) (act' >>= k') := by
  intro s
  have hs := h s
  cases hact : act s with
  | ok x t =>
    rw [hact] at hs
    rw [Action.bind_run hact, Action.bind_run hs]
    exact hk x t
  | error e t =>
    rw [hact] at hs
    rw [Action.bind_run_error hact, Action.bind_run_error hs]

theorem follows_read_bind {k : Switching μ → Action (Switching μ) α}
    {k' : Switching ν → Action (Switching ν) α}
    (h : ∀ s, Follows (logged f) (k s) (k' (s.map f))) :
    Follows (logged f) (Action.read >>= k) (Action.read >>= k') :=
  fun s => h s.state s

theorem follows_ite {p : Prop} [Decidable p] {next : Action (Switching μ) α}
    {next' : Action (Switching ν) α} (h : Follows (logged f) act act')
    (hnext : Follows (logged f) next next') :
    Follows (logged f) (if p then act else next) (if p then act' else next') := by
  split
  · exact h
  · exact hnext

theorem outcome_map (h : Follows (logged f) act act') (s : Switching μ) :
    act'.outcome (s.map f) = act.outcome s := by
  have hs := h ⟨s, #[]⟩
  change act' ⟨s.map f, #[]⟩ = _ at hs
  unfold Action.outcome
  rw [hs]
  cases act ⟨s, #[]⟩ with
  | ok x t => rfl
  | error e t => rfl

theorem final_map (h : Follows (logged f) act act') (s : Switching μ) :
    act'.final (s.map f) = (act.final s).map f := by
  have hs := h ⟨s, #[]⟩
  change act' ⟨s.map f, #[]⟩ = _ at hs
  unfold Action.final
  rw [hs]
  cases act ⟨s, #[]⟩ with
  | ok x t => rfl
  | error e t => rfl

end Follows

theorem follows_arm (fp : Sstatus.FpStatus) : Follows (logged f) (arm fp) (arm fp) :=
  fun _ => rfl

theorem follows_leave : Follows (logged f) leave leave :=
  fun _ => rfl

theorem follows_prepareTag (owner : OwnerId) (flush : Bool) :
    Follows (logged f) (prepareTag owner flush) (prepareTag owner flush) := by
  unfold prepareTag
  refine follows_bind (follows_onTagging _) fun a => follows_read_bind fun s => ?_
  refine follows_bind (follows_update fun _ => rfl) fun _ => ?_
  exact follows_ite (follows_bind (follows_onTagging _) fun _ => follows_pure _) (follows_pure _)

variable [Hardware μ] [Hardware ν]

theorem follows_enter (hf : Hardware.Follows f) (owner : OwnerId) (tag : Asid) (root : Word) :
    Follows (logged f) (enter owner tag root) (enter owner tag root) := by
  unfold enter
  refine follows_bind (follows_update fun _ => rfl) fun _ => follows_read_bind fun s => ?_
  refine follows_bind (follows_update fun _ => rfl) fun _ => ?_
  exact follows_bind (follows_onMachine (hf.enter root _)) fun _ => follows_update fun _ => rfl

theorem follows_loadFp (hf : Hardware.Follows f) : Follows (logged f) loadFp loadFp := by
  unfold loadFp
  refine follows_read_bind fun s => follows_bind (follows_log _) fun _ => ?_
  refine follows_bind (follows_update fun _ => rfl) fun _ => ?_
  refine follows_bind (follows_onMachine (hf.load _)) fun _ => ?_
  exact follows_bind (follows_update fun _ => rfl) fun _ => follows_arm _

theorem follows_saveFp (hf : Hardware.Follows f) : Follows (logged f) saveFp saveFp := by
  unfold saveFp
  refine follows_read_bind fun s => follows_bind (follows_update fun _ => rfl) fun _ => ?_
  refine follows_bind (follows_onMachine (hf.save _)) fun _ => ?_
  exact follows_bind (follows_update fun _ => rfl) fun _ => follows_update fun _ => rfl

theorem follows_runSandbox (hf : Hardware.Follows f) (owner : OwnerId) (tag : Asid) (root : Word) :
    Follows (logged f) (runSandbox owner tag root) (runSandbox owner tag root) := by
  have henter := follows_enter hf owner tag root
  refine follows_bind henter fun _ => follows_read_bind fun s => ?_
  exact follows_ite (follows_bind (follows_loadFp hf) fun _ => henter) (follows_pure _)

theorem follows_finish (hf : Hardware.Follows f) : Follows (logged f) finish finish := by
  refine follows_read_bind fun s => follows_ite ?_ follows_leave
  exact follows_bind (follows_saveFp hf) fun _ => follows_leave

theorem follows_run {A : Architecture} (hf : Hardware.Follows f) (space : AddressSpace A)
    (flush : Bool) : Follows (logged f) (run space flush) (run space flush) := by
  unfold run
  refine follows_read_bind fun s => follows_ite (follows_throw _) ?_
  refine follows_bind (follows_prepareTag _ _) fun tag => follows_read_bind fun s => ?_
  refine follows_bind (follows_lift _) fun root => ?_
  refine follows_bind (follows_update fun _ => rfl) fun _ => ?_
  refine follows_bind (follows_update fun _ => rfl) fun _ => ?_
  refine follows_bind (follows_arm _) fun _ => ?_
  exact follows_bind (follows_runSandbox hf _ _ _) fun _ => follows_finish hf

end Switching

end Sandbox
