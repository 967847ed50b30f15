import Sandbox.Proofs.Cpu.Passage

/-! # Switches on a unit

A switch that returns has entered the sandbox once or twice. Whichever it was, what it leaves
behind follows from what there was before without the file in the machine, and the context's own
file has seen its own instructions only.
-/

namespace Sandbox

namespace Cpu

variable {μ ν : Type}

def map (f : μ → ν) (c : Cpu μ) : Cpu ν :=
  { id := c.id, machine := f c.machine, stackSize := c.stackSize, vectors := c.vectors
    mode := c.mode, frame := c.frame, root := c.root, tag := c.tag, epochs := c.epochs
    fpDirty := c.fpDirty, lastExit := c.lastExit }

end Cpu

namespace Switching

variable {μ ν : Type} {s t : Switching μ} {owner : OwnerId} {tag : Asid} {root : Word}
  {L : Array LogRecord}

def map (f : μ → ν) (s : Switching μ) : Switching ν :=
  ⟨s.cpu.map f, s.context, s.tagging⟩

section Map

variable (g : μ → ν) (s : Switching μ) (m : μ)

theorem map_begun : (s.begun tag root).map g = (s.map g).begun tag root := rfl

theorem map_trapped (r : TrapFrame) :
    (s.trapped owner tag root r m).map g = (s.map g).trapped owner tag root r (g m) := rfl

theorem map_loaded : (s.loaded m).map g = (s.map g).loaded (g m) := rfl

theorem map_saved (f : FpFile) : (s.saved f m).map g = (s.map g).saved f (g m) := rfl

theorem map_left : s.left.map g = (s.map g).left := rfl

end Map

/-! ## What the parts of a switch have done when they return -/

theorem onTagging_eq_ok {α : Type} {act : Action Tagging α} {y : α} {u : Logged (Switching μ)}
    (h : onTagging act ⟨s, L⟩ = .ok y u) :
    ∃ x, act ⟨s.tagging, L⟩ = .ok y ⟨x, u.log⟩ ∧ u.state = { s with tagging := x } := by
  unfold onTagging Action.on at h
  cases hact : act ⟨s.tagging, L⟩ with
  | ok z t =>
    rw [hact] at h
    cases h
    exact ⟨t.state, rfl, rfl⟩
  | error e t =>
    rw [hact] at h
    cases h

def flushOnce (c : Cpu μ) (a : Assignment) (flush : Bool) : Action Tagging Unit :=
  if flush ∨ c.seen a.tag ≠ some a.epoch then Tagging.flush (.onCpu (some c.id)) a.tag else pure ()

theorem prepareTag_eq_ok_iff {b : Bool} {u : Logged (Switching μ)} :
    prepareTag owner b ⟨s, L⟩ = .ok tag u ↔ ∃ a v x L', tag = a.tag ∧
      Tagging.assign owner ⟨s.tagging, L⟩ = .ok a v ∧ flushOnce s.cpu a b v = .ok () ⟨x, L'⟩ ∧
        u = ⟨{ s with cpu := s.cpu.see a, tagging := x }, L'⟩ := by
  constructor
  · intro h
    obtain ⟨a, ⟨v, L₁⟩, hv, h⟩ := Action.ok_of_bind h
    obtain ⟨y, hy, rfl⟩ := onTagging_eq_ok hv
    replace h := Action.ok_of_read_bind h
    obtain ⟨_, _, hsee, h⟩ := Action.ok_of_bind h
    cases hsee
    refine ⟨a, ⟨y, L₁⟩, ?_⟩
    unfold flushOnce
    by_cases hflush : b ∨ s.cpu.seen a.tag ≠ some a.epoch
    · rw [if_pos hflush] at h ⊢
      obtain ⟨_, ⟨w, L₂⟩, hw, h⟩ := Action.ok_of_bind h
      obtain ⟨x, hx, rfl⟩ := onTagging_eq_ok hw
      cases h
      exact ⟨x, L₂, rfl, hy, hx, rfl⟩
    · rw [if_neg hflush] at h ⊢
      cases h
      exact ⟨y, L₁, rfl, hy, rfl, rfl⟩
  · rintro ⟨a, ⟨y, L₁⟩, x, L', rfl, hy, hx, rfl⟩
    unfold flushOnce at hx
    refine (Action.bind_run (onTagging_run hy)).trans ((Action.bind_run rfl).trans ?_)
    refine (Action.bind_run rfl).trans ?_
    dsimp only
    by_cases hflush : b ∨ s.cpu.seen a.tag ≠ some a.epoch
    · rw [if_pos hflush] at hx ⊢
      exact (Action.bind_run (onTagging_run hx)).trans rfl
    · rw [if_neg hflush] at hx ⊢
      cases hx
      rfl

/-! ## Whole switches -/

variable [Hardware μ] {A : Architecture} {ρ : Type} {C : Core ρ} {space : AddressSpace A}
  {flush : Bool}

/-- How a switch goes on a core once its tag is prepared. There is no file but the context's. -/
inductive Serves (C : Core ρ) (owner : OwnerId) (tag : Asid) (root : Word) (s : Switching ρ) :
    List (FpInstr ρ) → Switching ρ → Prop
  | light {y : Scene ρ}
      (h : C.RunsOff root ⟨s.context.registers.armed .off, s.cpu.machine⟩ false y)
      (hno : ¬ y.frame.FirstFpUse) :
      Serves C owner tag root s []
        ((s.begun tag root).trapped owner tag root y.frame y.rest).left
  | full {b : Bool} {y z : Scene ρ} {g : FpFile} {is : List (FpInstr ρ)}
      (h : C.RunsOff root ⟨s.context.registers.armed .off, s.cpu.machine⟩ b y)
      (hfirst : y.frame.FirstFpUse)
      (hrun : C.Runs root { y with frame := y.frame.armed .clean } s.context.fp is z g) :
      Serves C owner tag root s is
        (((((s.begun tag root).trapped owner tag root y.frame y.rest).loaded y.rest).trapped
          owner tag root z.frame z.rest).saved g z.rest).left

theorem Passes.serves (U : FpUnit μ C) {exit : Exit} {u : Switching μ}
    (h : Passes owner tag root (s.begun tag root) (.ok exit) u) (hv : U.Valid s.cpu.machine) :
    U.Valid u.cpu.machine ∧ ∃ is, Serves C owner tag root (s.map U.rest) is (u.map U.rest) := by
  cases h with
  | @light r m henter hno =>
    obtain ⟨hvm, b, hoff⟩ := U.enter_off hv henter (TrapFrame.fpStatus_armed .off _)
    obtain rfl : b = false := Bool.eq_false_iff.mpr fun hb => hno (hoff.firstFpUse hb)
    refine ⟨hvm, [], ?_⟩
    rw [map_left, map_trapped, map_begun]
    exact Serves.light (y := ⟨r, U.rest m⟩) hoff hno
  -- Whatever was in the machine's file is gone with the load.
  | @full r r' f m m₁ m₂ m₃ henter hfirst hload hagain hsave =>
    obtain ⟨hvm, b, hoff⟩ := U.enter_off hv henter (TrapFrame.fpStatus_armed .off _)
    obtain ⟨hv₁, hrest₁, hfile⟩ := U.load hvm hload
    have hclean : Sstatus.fpStatus (r.armed .clean).status ≠ .off := by simp
    obtain ⟨hv₂, is, hon⟩ := U.enter_on hv₁ hagain hclean
    obtain ⟨hv₃, hrest₃, rfl⟩ := U.save hv₂ hsave
    rw [hrest₁, hfile] at hon
    refine ⟨hv₃, is, ?_⟩
    rw [map_left, map_saved, map_trapped, map_loaded, map_trapped, map_begun, hrest₃, hrest₁]
    exact Serves.full (y := ⟨r, U.rest m⟩) (z := ⟨r', U.rest m₂⟩) hoff hfirst hon

def Switches (C : Core ρ) (space : AddressSpace A) (flush : Bool) (s : Switching ρ)
    (is : List (FpInstr ρ)) (t : Switching ρ) : Prop :=
  ∃ tag s' L root, prepareTag space.owner flush ⟨s, #[]⟩ = .ok tag ⟨s', L⟩ ∧
    space.rootWord (s'.tagging.owners.tag space.owner) (!flush) = .ok root ∧
      Serves C space.owner tag root s' is t

theorem mode_of_run_eq_ok {exit : Exit} {u : Logged (Switching μ)}
    (h : run space flush ⟨s, L⟩ = .ok exit u) : s.cpu.mode = .supervisor := by
  by_contra hmode
  replace h := Action.ok_of_read_bind h
  rw [if_pos hmode] at h
  cases h

theorem run_switches (U : FpUnit μ C) {exit : Exit} (h : (run space flush).outcome s = .ok exit)
    (hd : s.cpu.fpDirty = false) (hv : U.Valid s.cpu.machine) :
    U.Valid ((run space flush).final s).cpu.machine ∧
      ∃ is, Switches C space flush (s.map U.rest) is (((run space flush).final s).map U.rest) := by
  obtain ⟨u, hu⟩ := Action.outcome_eq_ok.mp h
  have hends := run_ends space flush (mode_of_run_eq_ok hu) hd
  rw [h] at hends
  cases hends with
  | @passed tag root t _ _ hready hpass =>
    obtain ⟨s', L, hprep, hroot, rfl⟩ := hready
    obtain ⟨a, v, x, L', rfl, hassign, hflush, heq⟩ := prepareTag_eq_ok_iff.mp hprep
    cases heq
    obtain ⟨hv', is, hserves⟩ := hpass.serves U hv
    exact ⟨hv', is, a.tag, _, L, root,
      prepareTag_eq_ok_iff.mpr ⟨a, v, x, L, rfl, hassign, hflush, rfl⟩, hroot, hserves⟩

namespace Serves

variable {s s' t t' : Switching ρ} {is is' : List (FpInstr ρ)}

theorem fpDirty_eq (h : Serves C owner tag root s is t) (hd : s.cpu.fpDirty = false) :
    t.cpu.fpDirty = false := by
  cases h with
  | light => exact hd
  | full => rfl

theorem stays (h : Serves C owner tag root s is t) : t.cpu.root = some root ∧
    ∃ z, C.Stays root ⟨s.context.registers, s.cpu.machine⟩ s.context.fp is z t.context.fp ∧
      t.context.registers = z.frame.kept ∧ t.cpu.machine = z.rest := by
  cases h with
  | light h hno => exact ⟨rfl, _, .light h hno, rfl, rfl⟩
  | full h hfirst hrun => exact ⟨rfl, _, .full h hfirst hrun, rfl, rfl⟩

theorem alike (h : Serves C owner tag root s is t) {f : FpFile}
    (h' : Serves C owner tag root { s with context.fp := f } is' t')
    (hf : f = s.context.fp ∨ ∀ i ∈ is, i.Discreet) :
    is' = is ∧ t' = { t with context.fp := t'.context.fp } := by
  cases h with
  | light hoff hno =>
    cases h' with
    | light hoff' =>
      obtain rfl := hoff.unique hoff'
      exact ⟨rfl, rfl⟩
    | full hoff' hfirst' => exact absurd (hoff.unique hoff' ▸ hfirst') hno
  | full hoff hfirst hrun =>
    cases h' with
    | light hoff' hno' => exact absurd (hoff.unique hoff' ▸ hfirst) hno'
    | full hoff' hfirst' hrun' =>
      obtain rfl := hoff.unique hoff'
      obtain ⟨rfl, rfl⟩ := hrun.alike hrun' hf
      exact ⟨rfl, rfl⟩

end Serves

namespace Switches

variable {s s' t t' : Switching ρ} {is is' : List (FpInstr ρ)}

theorem fpDirty_eq (h : Switches C space flush s is t) (hd : s.cpu.fpDirty = false) :
    t.cpu.fpDirty = false := by
  obtain ⟨tag, s', L, root, hprep, -, hserves⟩ := h
  obtain ⟨a, v, x, L', -, -, -, heq⟩ := prepareTag_eq_ok_iff.mp hprep
  cases heq
  exact hserves.fpDirty_eq hd

theorem stays (h : Switches C space flush s is t) : ∃ root z, t.cpu.root = some root ∧
    C.Stays root ⟨s.context.registers, s.cpu.machine⟩ s.context.fp is z t.context.fp ∧
      t.context.registers = z.frame.kept ∧ t.cpu.machine = z.rest := by
  obtain ⟨tag, s', L, root, hprep, -, hserves⟩ := h
  obtain ⟨a, v, x, L', -, -, -, heq⟩ := prepareTag_eq_ok_iff.mp hprep
  cases heq
  obtain ⟨hroot, z, hstays⟩ := hserves.stays
  exact ⟨root, z, hroot, hstays⟩

theorem fp_eq (h : Switches C space flush s is t) :
    t.context.fp = FpInstr.runAll is s.context.fp := by
  obtain ⟨root, z, -, hstays, -, -⟩ := h.stays
  exact hstays.file_eq

theorem alike (h : Switches C space flush s is t) {f : FpFile}
    (h' : Switches C space flush { s with context.fp := f } is' t')
    (hf : f = s.context.fp ∨ ∀ i ∈ is, i.Discreet) :
    is' = is ∧ t' = { t with context.fp := t'.context.fp } := by
  obtain ⟨tag, s₁, L, root, hprep, hroot, hserves⟩ := h
  obtain ⟨tag', s₁', L', root', hprep', hroot', hserves'⟩ := h'
  obtain ⟨a, v, x, L', rfl, hassign, hflush, heq⟩ := prepareTag_eq_ok_iff.mp hprep
  cases heq
  have hboth : prepareTag space.owner flush ⟨{ s with context.fp := f }, #[]⟩ = .ok a.tag
      ⟨{ s with context.fp := f, cpu := s.cpu.see a, tagging := x }, L⟩ :=
    prepareTag_eq_ok_iff.mpr ⟨a, v, x, L, rfl, hassign, hflush, rfl⟩
  cases hboth.symm.trans hprep'
  cases hroot.symm.trans hroot'
  exact hserves.alike hserves' hf

end Switches

end Switching

end Sandbox
