import Sandbox.Proofs.Cpu.FpUnit
import Sandbox.Proofs.Cpu.Switch

/-! # How a switch goes

A switch prepares its tag and finds its root word, and from then on it is up to the machine. The
machine is entered once, or twice with the context's file loaded in between and saved in the end,
unless one of these calls does not return.
-/

namespace Sandbox

namespace Switching

variable {μ : Type} {s t : Switching μ} {owner : OwnerId} {tag : Asid} {root : Word}
  {L : Array LogRecord}

/-! ## The states of a switch -/

def begun (s : Switching μ) (tag : Asid) (root : Word) : Switching μ :=
  { s with cpu := { s.cpu with
      root := some root, tag := some tag, frame := s.context.registers.armed .off } }

def noted (s : Switching μ) (e : Event) : Switching μ :=
  { s with tagging.trace.events := s.tagging.trace.events.push e }

def entering (s : Switching μ) (owner : OwnerId) (tag : Asid) (root : Word) : Switching μ :=
  { s.noted (.enter s.cpu.id owner tag root s.cpu.frame) with cpu.mode := .sandboxed }

def lost (s : Switching μ) (owner : OwnerId) (tag : Asid) (root : Word) (m : μ) : Switching μ :=
  { s.entering owner tag root with cpu.machine := m }

def trapped (s : Switching μ) (owner : OwnerId) (tag : Asid) (root : Word) (r : TrapFrame)
    (m : μ) : Switching μ :=
  { s with
    cpu := { s.cpu with machine := m, frame := r, mode := .supervisor }
    tagging.trace.events :=
      s.tagging.trace.events.push (.enter s.cpu.id owner tag root s.cpu.frame) }

def unloaded (s : Switching μ) (m : μ) : Switching μ :=
  { s.noted (.load s.cpu.id) with cpu.machine := m }

def loaded (s : Switching μ) (m : μ) : Switching μ :=
  { s with
    cpu := { s.cpu with machine := m, fpDirty := true, frame := s.cpu.frame.armed .clean }
    tagging.trace.events := s.tagging.trace.events.push (.load s.cpu.id) }

def unsaved (s : Switching μ) (m : μ) : Switching μ :=
  { s.noted (.save s.cpu.id) with cpu.machine := m }

def saved (s : Switching μ) (f : FpFile) (m : μ) : Switching μ :=
  { s with
    context.fp := f
    cpu := { s.cpu with machine := m, fpDirty := false }
    tagging.trace.events := s.tagging.trace.events.push (.save s.cpu.id) }

def left (s : Switching μ) : Switching μ :=
  { s with
    context.registers := s.cpu.frame.kept
    cpu := { s.cpu with lastExit := some (Exit.ofFrame s.cpu.frame) } }

/-! ## Getting ready -/

variable {A : Architecture} {space : AddressSpace A} {flush : Bool}

/-- The tag is prepared and the root word is found: from `s` the switch has come to `t`, where it
is ready to enter. -/
def Readies (space : AddressSpace A) (flush : Bool) (s : Switching μ) (tag : Asid) (root : Word)
    (t : Switching μ) : Prop :=
  ∃ s' L, prepareTag space.owner flush ⟨s, #[]⟩ = .ok tag ⟨s', L⟩ ∧
    space.rootWord (s'.tagging.owners.tag space.owner) (!flush) = .ok root ∧ t = s'.begun tag root

def Unmoved (s t : Switching μ) : Prop :=
  ∃ epochs x, t = { s with cpu.epochs := epochs, tagging := x }

theorem prepareTag_unmoved (owner : OwnerId) (b : Bool) (s : Switching μ) (L : Array LogRecord) :
    match prepareTag owner b ⟨s, L⟩ with
    | .ok _ u => Unmoved s u.state
    | .error _ u => Unmoved s u.state := by
  cases hassign : Tagging.assign owner ⟨s.tagging, L⟩ with
  | error e u =>
    rw [prepareTag_run_stuck hassign]
    exact ⟨_, _, rfl⟩
  | ok a u =>
    by_cases hret : b ∨ s.cpu.seen a.tag ≠ some a.epoch →
        a.tag ∉ u.state.trace.failing (.onCpu (some s.cpu.id))
    · rw [prepareTag_run hassign hret]
      exact ⟨_, _, rfl⟩
    · obtain ⟨hflush, hfail⟩ := Classical.not_imp.mp hret
      rw [prepareTag_run_failing hassign hflush (not_not.mp hfail)]
      exact ⟨_, _, rfl⟩

theorem Readies.begun_eq {t : Switching μ} (h : Readies space flush s tag root t) :
    ∃ s', Unmoved s s' ∧ t = s'.begun tag root := by
  obtain ⟨s', L, hprep, -, rfl⟩ := h
  have hs := prepareTag_unmoved space.owner flush s #[]
  rw [hprep] at hs
  exact ⟨s', hs, rfl⟩

/-- A switch gets ready, or it is given up before anything but tags has changed. -/
inductive Prepares (space : AddressSpace A) (flush : Bool) (s : Switching μ) : Prop
  | stuck {e : Stop} {t : Switching μ} {L : Array LogRecord}
      (hprep : prepareTag space.owner flush ⟨s, #[]⟩ = .error e ⟨t, L⟩)
      (hno : ∀ tag root t', ¬ Readies space flush s tag root t') (h : Unmoved s t)
  | rootless {tag : Asid} {t : Switching μ} {L : Array LogRecord} {a : Abort}
      (hprep : prepareTag space.owner flush ⟨s, #[]⟩ = .ok tag ⟨t, L⟩)
      (hroot : space.rootWord (t.tagging.owners.tag space.owner) (!flush) = .error a)
      (hno : ∀ tag root t', ¬ Readies space flush s tag root t') (h : Unmoved s t)
  | ready {tag : Asid} {root : Word} {t : Switching μ} {L : Array LogRecord}
      (hprep : prepareTag space.owner flush ⟨s, #[]⟩ = .ok tag ⟨t, L⟩)
      (hroot : space.rootWord (t.tagging.owners.tag space.owner) (!flush) = .ok root)
      (h : Unmoved s t)

theorem prepares (space : AddressSpace A) (flush : Bool) (s : Switching μ) :
    Prepares space flush s := by
  have hunmoved := prepareTag_unmoved space.owner flush s #[]
  cases hprep : prepareTag space.owner flush ⟨s, #[]⟩ with
  | error e u =>
    rw [hprep] at hunmoved
    refine .stuck hprep (fun tag root t h => ?_) hunmoved
    obtain ⟨s', L, hok, -⟩ := h
    cases hprep.symm.trans hok
  | ok tag u =>
    rw [hprep] at hunmoved
    cases hroot : space.rootWord (u.state.tagging.owners.tag space.owner) (!flush) with
    | error a =>
      refine .rootless hprep hroot (fun tag' root t h => ?_) hunmoved
      obtain ⟨s', L, hok, hroot', -⟩ := h
      cases hprep.symm.trans hok
      cases hroot.symm.trans hroot'
    | ok root => exact .ready hprep hroot hunmoved

/-! ## What the parts of a switch do -/

theorem onMachine_run {α : Type} {act : MachineAction μ α} {x : α} {m : μ}
    (h : act s.cpu.machine = .ok x m) :
    onMachine act ⟨s, L⟩ = .ok x ⟨{ s with cpu := { s.cpu with machine := m } }, L⟩ := by
  unfold onMachine
  refine (Action.bind_run rfl).trans ?_
  dsimp only
  rw [h]
  rfl

theorem onMachine_run_error {α : Type} {act : MachineAction μ α} {a : Abort} {m : μ}
    (h : act s.cpu.machine = .error a m) : onMachine act ⟨s, L⟩ =
      .error (.abort a) ⟨{ s with cpu := { s.cpu with machine := m } }, L⟩ := by
  unfold onMachine
  refine (Action.bind_run rfl).trans ?_
  dsimp only
  rw [h]
  rfl

theorem isFirstFpUse_iff {c : Cpu μ} (h : c.fpDirty = false) :
    isFirstFpUse c = true ↔ c.frame.FirstFpUse := by
  simp [isFirstFpUse, TrapFrame.FirstFpUse, h]

variable [Hardware μ]

theorem enter_run {r : TrapFrame} {m : μ}
    (h : Hardware.enter root s.cpu.frame s.cpu.machine = .ok r m) :
    enter owner tag root ⟨s, L⟩ = .ok () ⟨s.trapped owner tag root r m, L⟩ :=
  Action.bind_run (s := ⟨s.entering owner tag root, L⟩) (onMachine_run h)

theorem enter_run_error {a : Abort} {m : μ}
    (h : Hardware.enter root s.cpu.frame s.cpu.machine = .error a m) :
    enter owner tag root ⟨s, L⟩ = .error (.abort a) ⟨s.lost owner tag root m, L⟩ :=
  Action.bind_run_error (s := ⟨s.entering owner tag root, L⟩) (onMachine_run_error h)

theorem loadFp_run {m : μ} (h : Hardware.load s.context.fp s.cpu.machine = .ok () m) :
    loadFp ⟨s, L⟩ = .ok () ⟨s.loaded m, L.push (.firstFpUse s.cpu.id s.cpu.frame.ip)⟩ :=
  Action.bind_run (s := ⟨s.noted (.load s.cpu.id), _⟩) (onMachine_run h)

theorem loadFp_run_error {a : Abort} {m : μ}
    (h : Hardware.load s.context.fp s.cpu.machine = .error a m) :
    loadFp ⟨s, L⟩ =
      .error (.abort a) ⟨s.unloaded m, L.push (.firstFpUse s.cpu.id s.cpu.frame.ip)⟩ :=
  Action.bind_run_error (s := ⟨s.noted (.load s.cpu.id), _⟩) (onMachine_run_error h)

theorem saveFp_run {f : FpFile} {m : μ}
    (h : Hardware.save s.context.fp s.cpu.machine = .ok f m) :
    saveFp ⟨s, L⟩ = .ok () ⟨s.saved f m, L⟩ :=
  Action.bind_run (s := ⟨s.noted (.save s.cpu.id), L⟩) (onMachine_run h)

theorem saveFp_run_error {a : Abort} {m : μ}
    (h : Hardware.save s.context.fp s.cpu.machine = .error a m) :
    saveFp ⟨s, L⟩ = .error (.abort a) ⟨s.unsaved m, L⟩ :=
  Action.bind_run_error (s := ⟨s.noted (.save s.cpu.id), L⟩) (onMachine_run_error h)

/-! ## The loop of a switch

A switch enters until a trap is not a first use. Nothing else ends this loop, and yet it has no
third turn.
-/

/-- A turn of the loop, which goes on with `next` after a first use. -/
def turn (owner : OwnerId) (tag : Asid) (root : Word) (next : Action (Switching μ) Unit) :
    Action (Switching μ) Unit := do
  enter owner tag root
  if isFirstFpUse (← Action.read).cpu then
    loadFp
    next

variable {k k' : Action (Switching μ) Unit}

theorem turn_run {r : TrapFrame} {m : μ}
    (h : Hardware.enter root s.cpu.frame s.cpu.machine = .ok r m)
    (hno : ¬ isFirstFpUse (s.trapped owner tag root r m).cpu = true) :
    turn owner tag root k ⟨s, L⟩ = .ok () ⟨s.trapped owner tag root r m, L⟩ := by
  refine (Action.bind_run (enter_run h)).trans ((Action.bind_run rfl).trans ?_)
  dsimp only
  rw [if_neg hno]
  rfl

theorem turn_run_first {r : TrapFrame} {m : μ}
    (h : Hardware.enter root s.cpu.frame s.cpu.machine = .ok r m)
    (hfirst : isFirstFpUse (s.trapped owner tag root r m).cpu = true) :
    turn owner tag root k ⟨s, L⟩ =
      (loadFp >>= fun _ => k) ⟨s.trapped owner tag root r m, L⟩ := by
  refine (Action.bind_run (enter_run h)).trans ((Action.bind_run rfl).trans ?_)
  dsimp only
  rw [if_pos hfirst]

theorem turn_run_error {a : Abort} {m : μ}
    (h : Hardware.enter root s.cpu.frame s.cpu.machine = .error a m) :
    turn owner tag root k ⟨s, L⟩ = .error (.abort a) ⟨s.lost owner tag root m, L⟩ :=
  Action.bind_run_error (enter_run_error h)

theorem turn_run_dirty (hd : s.cpu.fpDirty = true) :
    turn owner tag root k ⟨s, L⟩ = enter owner tag root ⟨s, L⟩ := by
  cases h : Hardware.enter root s.cpu.frame s.cpu.machine with
  | error a m => rw [turn_run_error h, enter_run_error h]
  | ok r m =>
    have hno : ¬ isFirstFpUse (s.trapped owner tag root r m).cpu = true := by
      simp [isFirstFpUse, trapped, hd]
    rw [turn_run h hno, enter_run h]

theorem turn_congr (h : ∀ s L, s.cpu.fpDirty = true → k ⟨s, L⟩ = k' ⟨s, L⟩) :
    turn owner tag root k = turn owner tag root k' := by
  funext ⟨s, L⟩
  cases henter : Hardware.enter root s.cpu.frame s.cpu.machine with
  | error a m => rw [turn_run_error henter, turn_run_error henter]
  | ok r m =>
    by_cases hfirst : isFirstFpUse (s.trapped owner tag root r m).cpu = true
    · rw [turn_run_first henter hfirst, turn_run_first henter hfirst]
      cases hload : Hardware.load s.context.fp m with
      | error a m₁ =>
        rw [Action.bind_run_error (loadFp_run_error hload),
          Action.bind_run_error (loadFp_run_error hload)]
      | ok _ m₁ =>
        rw [Action.bind_run (loadFp_run hload), Action.bind_run (loadFp_run hload)]
        exact h _ _ rfl
    · rw [turn_run henter hfirst, turn_run henter hfirst]

/-- The sandbox is entered in two turns of the loop. -/
theorem runSandbox_eq : (runSandbox owner tag root : Action (Switching μ) Unit) =
    turn owner tag root (enter owner tag root) := rfl

/-- The loop of a switch and its two turns are the same. -/
theorem eq_turn_iff {loop : Action (Switching μ) Unit} :
    loop = turn owner tag root loop ↔ loop = runSandbox owner tag root := by
  constructor
  · intro hloop
    refine hloop.trans (turn_congr fun s L hd => ?_)
    rw [hloop, turn_run_dirty hd]
  · rintro rfl
    refine runSandbox_eq.trans (turn_congr fun s L hd => ?_)
    rw [runSandbox_eq, turn_run_dirty hd]

/-! ## The ways a switch goes -/

/-- How a switch ends that is ready to enter in the state `s` with no file loaded. -/
inductive Passes (owner : OwnerId) (tag : Asid) (root : Word) (s : Switching μ) :
    Except Stop Exit → Switching μ → Prop
  | lost {a : Abort} {m : μ}
      (henter : Hardware.enter root s.cpu.frame s.cpu.machine = .error a m) :
      Passes owner tag root s (.error (.abort a)) (s.lost owner tag root m)
  | light {r : TrapFrame} {m : μ}
      (henter : Hardware.enter root s.cpu.frame s.cpu.machine = .ok r m)
      (hno : ¬ r.FirstFpUse) :
      Passes owner tag root s (.ok (Exit.ofFrame r)) (s.trapped owner tag root r m).left
  | unloaded {r : TrapFrame} {a : Abort} {m m₁ : μ}
      (henter : Hardware.enter root s.cpu.frame s.cpu.machine = .ok r m)
      (hfirst : r.FirstFpUse) (hload : Hardware.load s.context.fp m = .error a m₁) :
      Passes owner tag root s (.error (.abort a)) ((s.trapped owner tag root r m).unloaded m₁)
  | lostAgain {r : TrapFrame} {a : Abort} {m m₁ m₂ : μ}
      (henter : Hardware.enter root s.cpu.frame s.cpu.machine = .ok r m)
      (hfirst : r.FirstFpUse) (hload : Hardware.load s.context.fp m = .ok () m₁)
      (hagain : Hardware.enter root (r.armed .clean) m₁ = .error a m₂) :
      Passes owner tag root s (.error (.abort a))
        (((s.trapped owner tag root r m).loaded m₁).lost owner tag root m₂)
  | unsaved {r r' : TrapFrame} {a : Abort} {m m₁ m₂ m₃ : μ}
      (henter : Hardware.enter root s.cpu.frame s.cpu.machine = .ok r m)
      (hfirst : r.FirstFpUse) (hload : Hardware.load s.context.fp m = .ok () m₁)
      (hagain : Hardware.enter root (r.armed .clean) m₁ = .ok r' m₂)
      (hsave : Hardware.save s.context.fp m₂ = .error a m₃) :
      Passes owner tag root s (.error (.abort a))
        ((((s.trapped owner tag root r m).loaded m₁).trapped owner tag root r' m₂).unsaved m₃)
  | full {r r' : TrapFrame} {f : FpFile} {m m₁ m₂ m₃ : μ}
      (henter : Hardware.enter root s.cpu.frame s.cpu.machine = .ok r m)
      (hfirst : r.FirstFpUse) (hload : Hardware.load s.context.fp m = .ok () m₁)
      (hagain : Hardware.enter root (r.armed .clean) m₁ = .ok r' m₂)
      (hsave : Hardware.save s.context.fp m₂ = .ok f m₃) :
      Passes owner tag root s (.ok (Exit.ofFrame r'))
        ((((s.trapped owner tag root r m).loaded m₁).trapped owner tag root r' m₂).saved f m₃).left

def finish : Action (Switching μ) Exit := do
  if (← Action.read).cpu.fpDirty then
    saveFp
  leave

theorem finish_run (h : s.cpu.fpDirty = false) : finish ⟨s, L⟩ = leave ⟨s, L⟩ := by
  refine (Action.bind_run rfl).trans ?_
  dsimp only
  rw [if_neg (Bool.eq_false_iff.mp h)]

theorem finish_run_dirty (h : s.cpu.fpDirty = true) :
    finish ⟨s, L⟩ = (saveFp >>= fun _ => leave) ⟨s, L⟩ := by
  refine (Action.bind_run rfl).trans ?_
  dsimp only
  rw [if_pos h]

theorem runSandbox_finish_passes (owner : OwnerId) (tag : Asid) (root : Word)
    (hd : s.cpu.fpDirty = false) (L : Array LogRecord) :
    match (runSandbox owner tag root >>= fun _ => finish) ⟨s, L⟩ with
    | .ok exit u => Passes owner tag root s (.ok exit) u.state
    | .error e u => Passes owner tag root s (.error e) u.state := by
  rw [runSandbox_eq]
  cases henter : Hardware.enter root s.cpu.frame s.cpu.machine with
  | error a m =>
    rw [Action.bind_run_error (turn_run_error henter)]
    exact .lost henter
  | ok r m =>
    have hiff := isFirstFpUse_iff (c := (s.trapped owner tag root r m).cpu) hd
    by_cases hfirst : r.FirstFpUse
    · have hrun := turn_run_first (k := enter owner tag root) (L := L) henter (hiff.mpr hfirst)
      cases hload : Hardware.load s.context.fp m with
      | error a m₁ =>
        rw [Action.bind_run_error (hrun.trans (Action.bind_run_error (loadFp_run_error hload)))]
        exact .unloaded henter hfirst hload
      | ok _ m₁ =>
        have hthen := hrun.trans (Action.bind_run (loadFp_run hload))
        cases hagain : Hardware.enter root (r.armed .clean) m₁ with
        | error a m₂ =>
          rw [Action.bind_run_error (hthen.trans (enter_run_error hagain))]
          exact .lostAgain henter hfirst hload hagain
        | ok r' m₂ =>
          rw [Action.bind_run (hthen.trans (enter_run hagain)), finish_run_dirty rfl]
          cases hsave : Hardware.save s.context.fp m₂ with
          | error a m₃ =>
            rw [Action.bind_run_error (saveFp_run_error hsave)]
            exact .unsaved henter hfirst hload hagain hsave
          | ok f m₃ =>
            rw [Action.bind_run (saveFp_run hsave)]
            exact .full henter hfirst hload hagain hsave
    · have hrest := finish_run (s := s.trapped owner tag root r m) (L := L) hd
      rw [Action.bind_run (turn_run henter (mt hiff.mp hfirst)), hrest]
      exact .light henter hfirst

/-! ## Whole switches -/

/-- How a whole switch ends. -/
inductive Ends (space : AddressSpace A) (flush : Bool) (s : Switching μ) :
    Except Stop Exit → Switching μ → Prop
  | unready {e : Stop} {t : Switching μ}
      (hno : ∀ tag root t', ¬ Readies space flush s tag root t') (h : Unmoved s t) :
      Ends space flush s (.error e) t
  | passed {tag : Asid} {root : Word} {t u : Switching μ} {o : Except Stop Exit}
      (hready : Readies space flush s tag root t) (h : Passes space.owner tag root t o u) :
      Ends space flush s o u

theorem proceed_run
    (hroot : space.rootWord (s.tagging.owners.tag space.owner) (!flush) = .ok root) :
    proceed space tag flush ⟨s, L⟩ =
      (runSandbox space.owner tag root >>= fun _ => finish) ⟨s.begun tag root, L⟩ := by
  refine (Action.bind_run rfl).trans ?_
  dsimp only
  rw [hroot]
  rfl

theorem proceed_run_stuck {a : Abort}
    (hroot : space.rootWord (s.tagging.owners.tag space.owner) (!flush) = .error a) :
    proceed space tag flush ⟨s, L⟩ = .error (.abort a) ⟨s, L⟩ := by
  refine (Action.bind_run rfl).trans ?_
  dsimp only
  rw [hroot]
  rfl

theorem run_ends (space : AddressSpace A) (flush : Bool) (hmode : s.cpu.mode = .supervisor)
    (hd : s.cpu.fpDirty = false) :
    Ends space flush s ((run space flush).outcome s) ((run space flush).final s) := by
  unfold Action.outcome Action.final
  rw [run_eq space flush hmode #[]]
  cases prepares space flush s with
  | stuck hprep hno hunmoved =>
    rw [Action.bind_run_error hprep]
    exact .unready hno hunmoved
  | rootless hprep hroot hno hunmoved =>
    rw [Action.bind_run hprep, proceed_run_stuck hroot]
    exact .unready hno hunmoved
  | @ready tag root s' L hprep hroot hunmoved =>
    have hready : Readies space flush s tag root (s'.begun tag root) :=
      ⟨s', L, hprep, hroot, rfl⟩
    have hclean : s'.cpu.fpDirty = false := by
      obtain ⟨epochs, x, rfl⟩ := hunmoved
      exact hd
    have hpass :=
      runSandbox_finish_passes space.owner tag root (s := s'.begun tag root) hclean L
    rw [Action.bind_run hprep, proceed_run hroot]
    split at hpass
    · next hend =>
      rw [hend]
      exact .passed hready hpass
    · next hend =>
      rw [hend]
      exact .passed hready hpass

end Switching

end Sandbox
