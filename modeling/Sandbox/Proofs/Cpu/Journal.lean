import Sandbox.Proofs.Cpu.Causes
import Sandbox.Proofs.Cpu.Isolation
import Sandbox.Proofs.Cpu.Mirror
import Sandbox.ScriptedMachine

/-! # Journals

A machine that keeps a journal of its calls behaves like the machine without one, so that the
journal of a switch says what the switch has asked of its machine: how often it has entered, and
when it has loaded a file or saved one.
-/

namespace Sandbox

inductive MachineCall
  | enter (root : Word) (frame : TrapFrame) (result : Option TrapFrame)
  | load (file : FpFile) (result : Option Unit)
  | save (file : FpFile) (result : Option FpFile)
  deriving DecidableEq

namespace MachineCall

def isEnter : MachineCall → Bool
  | enter .. => true
  | load .. | save .. => false

def returned : MachineCall → Bool
  | enter _ _ result => result.isSome
  | load _ result => result.isSome
  | save _ result => result.isSome

end MachineCall

structure Journaled (μ : Type) where
  machine : μ
  calls : List MachineCall := []

namespace Journaled

variable {μ α : Type} {act : MachineAction μ α} {call : Option α → MachineCall}
  {j j' : Journaled μ} {l : List MachineCall}

def record (act : MachineAction μ α) (call : Option α → MachineCall) :
    MachineAction (Journaled μ) α := fun j =>
  match act j.machine with
  | .ok x m => .ok x ⟨m, j.calls ++ [call (some x)]⟩
  | .error a m => .error a ⟨m, j.calls ++ [call none]⟩

instance [Hardware μ] : Hardware (Journaled μ) where
  enter root r := record (Hardware.enter root r) (.enter root r)
  load file := record (Hardware.load file) (.load file)
  save file := record (Hardware.save file) (.save file)

theorem follows_record : Follows machine (record act call) act := by
  intro j
  unfold record
  cases act j.machine with
  | ok x m => rfl
  | error a m => rfl

theorem follows_machine [Hardware μ] : Hardware.Follows (machine : Journaled μ → μ) :=
  ⟨fun _ _ => follows_record, fun _ => follows_record, fun _ => follows_record⟩

theorem calls_of_record {x : α} (h : record act call j = .ok x j') (hj : j.calls = l) :
    j'.calls = l ++ [call (some x)] := by
  unfold record at h
  split at h
  · cases h
    rw [hj]
  · cases h

theorem calls_of_record_error {a : Abort} (h : record act call j = .error a j')
    (hj : j.calls = l) : j'.calls = l ++ [call none] := by
  unfold record at h
  split at h
  · cases h
  · cases h
    rw [hj]

end Journaled

namespace Switching

variable {A : Architecture} {μ : Type} {s t : Switching μ} {space : AddressSpace A} {flush : Bool}
  {owner : OwnerId} {tag : Asid} {root : Word} {c : Context} {l : List MachineCall}
  {e : Option (TrapFrame × FpFile)} {exit : Exit} {r : TrapFrame} {f : FpFile}
  {o : Except Stop Exit}

/-! ## What a switch may ask -/

/-- What a switch to a context asks of its machine. If every call returns, `some (r, f)` is the
last frame and the file that the context is left with. -/
inductive Asks (root : Word) (c : Context) :
    List MachineCall → Option (TrapFrame × FpFile) → Prop
  | lost : Asks root c [.enter root (c.registers.armed .off) none] none
  | light {r : TrapFrame} (hno : ¬ (Sstatus.fpStatus r.status = .off ∧ r.cause = 2)) :
      Asks root c [.enter root (c.registers.armed .off) (some r)] (some (r, c.fp))
  | unloaded {r : TrapFrame} (hfirst : Sstatus.fpStatus r.status = .off ∧ r.cause = 2) :
      Asks root c [.enter root (c.registers.armed .off) (some r), .load c.fp none] none
  | lostAgain {r : TrapFrame} (hfirst : Sstatus.fpStatus r.status = .off ∧ r.cause = 2) :
      Asks root c [.enter root (c.registers.armed .off) (some r), .load c.fp (some ()),
        .enter root (r.armed .clean) none] none
  | unsaved {r r' : TrapFrame} (hfirst : Sstatus.fpStatus r.status = .off ∧ r.cause = 2) :
      Asks root c [.enter root (c.registers.armed .off) (some r), .load c.fp (some ()),
        .enter root (r.armed .clean) (some r'), .save c.fp none] none
  | full {r r' : TrapFrame} {f : FpFile}
      (hfirst : Sstatus.fpStatus r.status = .off ∧ r.cause = 2) :
      Asks root c [.enter root (c.registers.armed .off) (some r), .load c.fp (some ()),
        .enter root (r.armed .clean) (some r'), .save c.fp (some f)] (some (r', f))

structure Concluded (exit : Exit) (r : TrapFrame) (f : FpFile) (t : Switching μ) : Prop where
  exit_eq : exit = Exit.ofFrame r
  lastExit : t.cpu.lastExit = some exit
  mode : t.cpu.mode = .supervisor
  clean : t.cpu.fpDirty = false
  fp : t.context.fp = f
  registers : ∀ i, t.context.registers.get i =
    if i = TrapFrame.epc ∧ r.cause = 8 then r.get i + 4 else r.get i

/-- How a switch ends, and what it has asked of its machine by then. -/
inductive Accounts (space : AddressSpace A) (flush : Bool) (s : Switching μ) :
    Except Stop Exit → List MachineCall → Switching μ → Prop
  | unready {e : Stop} {t : Switching μ}
      (hno : ∀ tag root t', ¬ Readies space flush s tag root t') :
      Accounts space flush s (.error e) [] t
  | stopped {tag : Asid} {root : Word} {t u : Switching μ} {e : Stop} {l : List MachineCall}
      (hready : Readies space flush s tag root t) (hasks : Asks root s.context l none) :
      Accounts space flush s (.error e) l u
  | returned {tag : Asid} {root : Word} {t u : Switching μ} {exit : Exit} {l : List MachineCall}
      {r : TrapFrame} {f : FpFile} (hready : Readies space flush s tag root t)
      (hasks : Asks root s.context l (some (r, f))) (h : Concluded exit r f u) :
      Accounts space flush s (.ok exit) l u

theorem Asks.enters_le (h : Asks root c l e) : l.countP MachineCall.isEnter ≤ 2 := by
  cases h <;> simp [List.countP_cons, MachineCall.isEnter]

theorem Asks.returned_iff (h : Asks root c l e) :
    (∀ call ∈ l, call.returned = true) ↔ e ≠ none := by
  cases h <;> simp [MachineCall.returned]

theorem Concluded.map {ν : Type} (h : Concluded exit r f t) (g : μ → ν) :
    Concluded exit r f (t.map g) :=
  ⟨h.exit_eq, h.lastExit, h.mode, h.clean, h.fp, h.registers⟩

theorem Readies.map {ν : Type} (h : Readies space flush s tag root t) (g : μ → ν) :
    Readies space flush (s.map g) tag root (t.map g) := by
  obtain ⟨s', L, hprep, hroot, rfl⟩ := h
  have hfollow := follows_prepareTag (f := g) space.owner flush ⟨s, #[]⟩
  rw [hprep] at hfollow
  exact ⟨s'.map g, L, hfollow, hroot, rfl⟩

namespace Accounts

theorem enters_le (h : Accounts space flush s o l t) : l.countP MachineCall.isEnter ≤ 2 := by
  cases h with
  | unready => exact Nat.zero_le 2
  | stopped _ hasks | returned _ hasks _ => exact hasks.enters_le

theorem exists_ok_iff (h : Accounts space flush s o l t) : (∃ exit, o = .ok exit) ↔
    (∃ tag root t, Readies space flush s tag root t) ∧ ∀ call ∈ l, call.returned = true := by
  cases h with
  | unready hno =>
    refine ⟨nofun, fun h => ?_⟩
    obtain ⟨⟨tag, root, t, hready⟩, -⟩ := h
    exact absurd hready (hno tag root t)
  | stopped _ hasks => exact ⟨nofun, fun h => absurd rfl (hasks.returned_iff.mp h.2)⟩
  | returned hready hasks _ =>
    exact ⟨fun _ => ⟨⟨_, _, _, hready⟩, hasks.returned_iff.mpr nofun⟩, fun _ => ⟨_, rfl⟩⟩

theorem exists_concluded (h : Accounts space flush s (.ok exit) l t) :
    ∃ tag root t' r f, Readies space flush s tag root t' ∧ Asks root s.context l (some (r, f)) ∧
      Concluded exit r f t := by
  cases h with
  | returned hready hasks h => exact ⟨_, _, _, _, _, hready, hasks, h⟩

end Accounts

/-! ## What a switch has asked -/

section Journaled

variable [Hardware μ] {s u : Switching (Journaled μ)}

theorem Passes.asks (h : Passes owner tag root (s.begun tag root) o u)
    (hs : s.cpu.machine.calls = []) (hd : s.cpu.fpDirty = false) :
    (∃ e, o = .error e ∧ Asks root s.context u.cpu.machine.calls none) ∨
      ∃ exit r f, o = .ok exit ∧ Asks root s.context u.cpu.machine.calls (some (r, f)) ∧
        Concluded exit r f u := by
  cases h with
  | lost henter =>
    have hcalls := Journaled.calls_of_record_error henter hs
    exact Or.inl ⟨_, rfl, hcalls ▸ .lost⟩
  | @light r m henter hno =>
    have hcalls := Journaled.calls_of_record henter hs
    exact Or.inr ⟨_, r, s.context.fp, rfl, hcalls ▸ .light (mt TrapFrame.firstFpUse_iff.mpr hno),
      rfl, rfl, rfl, hd, rfl, r.get_kept⟩
  | unloaded henter hfirst hload =>
    have hcalls := Journaled.calls_of_record henter hs
    have hcalls₁ := Journaled.calls_of_record_error hload hcalls
    exact Or.inl ⟨_, rfl, hcalls₁ ▸ .unloaded (TrapFrame.firstFpUse_iff.mp hfirst)⟩
  | lostAgain henter hfirst hload hagain =>
    have hcalls := Journaled.calls_of_record henter hs
    have hcalls₁ := Journaled.calls_of_record hload hcalls
    have hcalls₂ := Journaled.calls_of_record_error hagain hcalls₁
    exact Or.inl ⟨_, rfl, hcalls₂ ▸ .lostAgain (TrapFrame.firstFpUse_iff.mp hfirst)⟩
  | unsaved henter hfirst hload hagain hsave =>
    have hcalls := Journaled.calls_of_record henter hs
    have hcalls₁ := Journaled.calls_of_record hload hcalls
    have hcalls₂ := Journaled.calls_of_record hagain hcalls₁
    have hcalls₃ := Journaled.calls_of_record_error hsave hcalls₂
    exact Or.inl ⟨_, rfl, hcalls₃ ▸ .unsaved (TrapFrame.firstFpUse_iff.mp hfirst)⟩
  | @full r r' f m m₁ m₂ m₃ henter hfirst hload hagain hsave =>
    have hcalls := Journaled.calls_of_record henter hs
    have hcalls₁ := Journaled.calls_of_record hload hcalls
    have hcalls₂ := Journaled.calls_of_record hagain hcalls₁
    have hcalls₃ := Journaled.calls_of_record hsave hcalls₂
    exact Or.inr ⟨_, r', f, rfl, hcalls₃ ▸ .full (TrapFrame.firstFpUse_iff.mp hfirst),
      rfl, rfl, rfl, rfl, rfl, r'.get_kept⟩

/-- A switch that comes back leaves a file loaded only if the file was not saved. -/
theorem Passes.clean (h : Passes owner tag root s o u) (hd : s.cpu.fpDirty = false)
    (hret : ∀ call ∈ u.cpu.machine.calls, call.isEnter = false → call.returned = true)
    (hmode : u.cpu.mode = .supervisor) : u.cpu.fpDirty = false := by
  cases h with
  | lost | lostAgain => cases hmode
  | light | unloaded => exact hd
  | unsaved henter hfirst hload hagain hsave =>
    have hcalls := Journaled.calls_of_record_error hsave rfl
    have hlast := hret _ (hcalls ▸ List.mem_append_right _ List.mem_cons_self) rfl
    cases hlast
  | full => rfl

theorem Ends.clean (h : Ends space flush s o u) (hd : s.cpu.fpDirty = false)
    (hret : ∀ call ∈ u.cpu.machine.calls, call.isEnter = false → call.returned = true)
    (hmode : u.cpu.mode = .supervisor) : u.cpu.fpDirty = false := by
  cases h with
  | unready _ hunmoved =>
    obtain ⟨epochs, x, rfl⟩ := hunmoved
    exact hd
  | passed hready hpass =>
    obtain ⟨s', ⟨epochs, x, rfl⟩, rfl⟩ := hready.begun_eq
    exact hpass.clean hd hret hmode

end Journaled

variable [Hardware μ]

def opened (s : Switching μ) : Switching (Journaled μ) :=
  s.map (Journaled.mk · [])

def calls (s : Switching μ) (space : AddressSpace A) (flush : Bool) : List MachineCall :=
  ((run space flush).final s.opened).cpu.machine.calls

theorem outcome_opened (s : Switching μ) (space : AddressSpace A) (flush : Bool) :
    (run space flush).outcome s.opened = (run space flush).outcome s :=
  (outcome_map (follows_run Journaled.follows_machine space flush) s.opened).symm

theorem final_opened (s : Switching μ) (space : AddressSpace A) (flush : Bool) :
    ((run space flush).final s.opened).map Journaled.machine = (run space flush).final s :=
  (final_map (follows_run Journaled.follows_machine space flush) s.opened).symm

theorem run_accounts (space : AddressSpace A) (flush : Bool) (hmode : s.cpu.mode = .supervisor)
    (hd : s.cpu.fpDirty = false) :
    Accounts space flush s ((run space flush).outcome s) (s.calls space flush)
      ((run space flush).final s) := by
  have hends := run_ends (s := s.opened) space flush hmode hd
  rw [outcome_opened] at hends
  unfold calls
  rw [← final_opened s]
  -- From here on nothing but the way of the journaled switch matters.
  revert hends
  generalize (run space flush).outcome s = o
  generalize (run space flush).final s.opened = u
  intro hends
  cases hends with
  | unready hno hunmoved =>
    obtain ⟨epochs, x, rfl⟩ := hunmoved
    exact .unready fun tag root t h => hno tag root _ (h.map (Journaled.mk · []))
  | passed hready hpass =>
    have hready' := hready.map Journaled.machine
    obtain ⟨s', ⟨epochs, x, rfl⟩, rfl⟩ := hready.begun_eq
    rcases hpass.asks rfl hd with ⟨e, rfl, hasks⟩ | ⟨exit, r, f, rfl, hasks, h⟩
    · exact .stopped hready' hasks
    · exact .returned hready' hasks (h.map _)

end Switching

/-! ## CPUs that have served -/

/-- CPUs that have come online and have made any switches since, in which no load and no save has
failed. What a machine does between the switches is not up to the CPU. -/
inductive Cpu.Served {μ : Type} [Hardware μ] : Cpu μ → Prop
  | start {A : Architecture} {k : Kernel A} {id : Nat} {machine : μ} {vectors : Word} {c : Cpu μ}
      (hc : (Cpu.start id machine vectors).outcome k = .ok c) : Served c
  | tamper {c : Cpu μ} (h : Served c) (machine : μ) : Served { c with machine := machine }
  | switch {A : Architecture} {s : Switching μ} (h : Served s.cpu) (space : AddressSpace A)
      (flush : Bool)
      (hret : ∀ call ∈ s.calls space flush, call.isEnter = false → call.returned = true) :
      Served ((Switching.run space flush).final s).cpu

namespace Cpu

open Switching

variable {A : Architecture} {μ : Type} [Hardware μ] {c : Cpu μ}

/-- Between switches no file is loaded, unless an entry has not come back. -/
theorem Served.clean (h : c.Served) (hmode : c.mode = .supervisor) : c.fpDirty = false := by
  induction h with
  | start hc =>
    obtain rfl := eq_of_start hc
    rfl
  | tamper _ machine ih => exact ih hmode
  | @switch A s h space flush hret ih =>
    by_cases hbefore : s.cpu.mode = .supervisor
    · have hends := run_ends (s := s.opened) space flush hbefore (ih hbefore)
      rw [← final_opened s] at hmode ⊢
      exact hends.clean (ih hbefore) hret hmode
    · rw [run_final_of_sandboxed space flush hbefore] at hmode
      exact absurd hmode hbefore

/-- A switch leaves its loop after at most two entries, whatever the machine does, and it returns if
its tag is prepared, its root word is found and every call of the machine returns. It loads the
file of the context once if the first trap is a first use, then enters again and saves into that
file at last, and otherwise it leaves the file alone. -/
theorem Served.pairs_load_and_save {s : Switching μ} (h : s.cpu.Served)
    (hmode : s.cpu.mode = .supervisor) (space : AddressSpace A) (flush : Bool) :
    (∀ (owner : OwnerId) (tag : Asid) (root : Word) (loop : Action (Switching μ) Unit),
      loop = turn owner tag root loop ↔ loop = runSandbox owner tag root) ∧
    (s.calls space flush).countP MachineCall.isEnter ≤ 2 ∧
    ((∃ exit, (run space flush).outcome s = .ok exit) ↔
      (∃ tag root t, Readies space flush s tag root t) ∧
        ∀ call ∈ s.calls space flush, call.returned = true) ∧
    ∀ exit, (run space flush).outcome s = .ok exit →
      ∃ tag root t r f, Readies space flush s tag root t ∧
        Asks root s.context (s.calls space flush) (some (r, f)) ∧
        Concluded exit r f ((run space flush).final s) := by
  have haccounts := run_accounts space flush hmode (h.clean hmode)
  refine ⟨fun _ _ _ _ => eq_turn_iff, haccounts.enters_le, haccounts.exists_ok_iff, ?_⟩
  intro exit hexit
  rw [hexit] at haccounts
  exact haccounts.exists_concluded

/-- A CPU whose code uses the floating-point unit before each system call. -/
def player : Cpu ScriptedMachine :=
  { id := 0, machine := ⟨[.fp 1 7, .ecall, .fp 2 9, .ecall], .zero⟩, stackSize := 16384
    vectors := 0 }

def encore : Switching ScriptedMachine :=
  (run (Fleet.spaceOf ⟨1⟩) false).final ⟨player, {}, ⟨Fleet.oneTag.pool, ({} : Owners).create, {}⟩⟩

theorem served_encore : encore.cpu.Served := by
  have hstart : (Cpu.start 0 player.machine 0).outcome Fleet.oneTag = .ok player := rfl
  exact .switch (.start hstart) (Fleet.spaceOf ⟨1⟩) false (by decide +kernel)

/-- The second switch loads and saves once more, and the file keeps what the first has left. -/
theorem pairs_load_and_save_encore : encore.cpu.Served ∧ encore.cpu.mode = .supervisor ∧
    ∃ root r f,
      Asks root encore.context (encore.calls (Fleet.spaceOf ⟨1⟩) false) (some (r, f)) ∧
      (encore.calls (Fleet.spaceOf ⟨1⟩) false).length = 4 ∧
      Concluded .syscall r f ((run (Fleet.spaceOf ⟨1⟩) false).final encore) ∧
      f.f 1 = .ok 7 ∧ f.f 2 = .ok 9 := by
  have hmode : encore.cpu.mode = .supervisor := by decide +kernel
  have hexit : (run (Fleet.spaceOf ⟨1⟩) false).outcome encore = .ok .syscall := by decide +kernel
  have hfile : ((run (Fleet.spaceOf ⟨1⟩) false).final encore).context.fp.f 1 = .ok 7 ∧
      ((run (Fleet.spaceOf ⟨1⟩) false).final encore).context.fp.f 2 = .ok 9 := by decide +kernel
  obtain ⟨-, -, -, hreturns⟩ :=
    served_encore.pairs_load_and_save hmode (Fleet.spaceOf ⟨1⟩) false
  obtain ⟨tag, root, t, r, f, -, hasks, h⟩ := hreturns .syscall hexit
  exact ⟨served_encore, hmode, root, r, f, hasks, by decide +kernel, h, h.fp ▸ hfile⟩

end Cpu

end Sandbox
