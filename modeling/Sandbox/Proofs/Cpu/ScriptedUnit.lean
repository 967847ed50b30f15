import Sandbox.Proofs.Cpu.FpUnit
import Sandbox.ScriptedMachine

/-! # The unit of a scripted machine

A scripted machine has a floating-point unit as long as its script leaves the status register
alone, as code in user mode has to.
-/

namespace Sandbox

def MachineStep.KeepsStatus : MachineStep → Prop
  | .register slot _ => slot ≠ 32
  | _ => True

namespace ScriptedMachine

/-- What is left of a script. Where a script crashes or ends, its code never comes back. -/
def core : Core (List MachineStep) where
  next _ x := match x.rest with
    | [] | .crash :: _ => .plain x
    | .fp i value :: rest =>
      .fp fun f => ((f.setF i value).toOption.getD f, ⟨stepFp x.frame, rest⟩)
    | .fcsr value :: rest => .fp fun f => (f.setFcsr value, ⟨stepFp x.frame, rest⟩)
    | .register slot value :: rest =>
      .plain ⟨(x.frame.store slot value).toOption.getD x.frame, rest⟩
    | .ecall :: rest => .trap ⟨raise x.frame 8 0, rest⟩
    | .exception cause addr :: rest => .trap ⟨raise x.frame cause addr, rest⟩
    | .interrupt code :: rest => .trap ⟨raise x.frame (code ||| interruptBit) 0, rest⟩
    | .trap cause addr status :: rest =>
      .trap ⟨(raise x.frame cause addr).set TrapFrame.statusSlot status, rest⟩
  refuse _ x := ⟨raise x.frame illegalInstruction 0, x.rest⟩

theorem core_confined : core.Confined := by
  intro root x i hi f g
  simp only [core] at hi
  split at hi <;> cases hi <;> rfl

variable {root : Word} {r r' : TrapFrame} {f : FpFile} {m : ScriptedMachine} {s : MachineStep}
  {rest script : List MachineStep}

theorem fpStatus_raise (r : TrapFrame) (cause addr : Word) :
    Sstatus.fpStatus (raise r cause addr).status = Sstatus.fpStatus r.status := by
  simp only [raise, TrapFrame.status, TrapFrame.get_set, if_pos]
  exact congrArg Sstatus.FpStatus.ofCode (BitField.Apart.get_set (by decide) _ _)

theorem firstFpUse_raise (hoff : Sstatus.fpStatus r.status = .off) :
    (raise r illegalInstruction 0).FirstFpUse := by
  refine ⟨(fpStatus_raise r _ _).trans hoff, ?_⟩
  have hcause : (raise r illegalInstruction 0).cause = illegalInstruction := by
    simp [raise, TrapFrame.cause, TrapFrame.causeSlot, TrapFrame.badAddrSlot, TrapFrame.origA0,
      TrapFrame.statusSlot]
  rw [hcause]
  decide

theorem fpStatus_stepFp (r : TrapFrame) : Sstatus.fpStatus (stepFp r).status = .dirty := by
  simp [stepFp, TrapFrame.status, TrapFrame.statusSlot, TrapFrame.epc]

theorem fpStatus_store {slot : Nat} {value : Word} (hs : slot ≠ 32)
    (h : r.store slot value = .ok r') : r'.status = r.status := by
  unfold TrapFrame.store at h
  split at h
  · obtain rfl := Except.ok.inj h
    rw [TrapFrame.status, TrapFrame.get_set, if_neg (mt (congrArg Fin.val) hs)]
    rfl
  · cases h

theorem play_cons (root : Word) (h : play r f (s :: rest) = (.ok r', m)) (hs : s.KeepsStatus) :
    (∃ r₁, core.next root ⟨r, s :: rest⟩ = .plain ⟨r₁, rest⟩ ∧ r₁.status = r.status ∧
      play r₁ f rest = (.ok r', m)) ∨
    (core.next root ⟨r, s :: rest⟩ = .trap ⟨r', rest⟩ ∧ m = ⟨rest, f⟩) ∨
    ∃ i, core.next root ⟨r, s :: rest⟩ = .fp i ∧
      if Sstatus.fpStatus r.status = .off then
        r' = raise r illegalInstruction 0 ∧ m = ⟨s :: rest, f⟩
      else (i f).2 = ⟨stepFp r, rest⟩ ∧ play (stepFp r) (i f).1 rest = (.ok r', m) := by
  cases s with
  | fp i value =>
    refine Or.inr (Or.inr ⟨_, rfl, ?_⟩)
    rw [play] at h
    split
    · next hoff =>
      rw [if_pos hoff] at h
      cases h
      exact ⟨rfl, rfl⟩
    · next hon =>
      rw [if_neg hon] at h
      cases hf : f.setF i value with
      | ok g =>
        rw [hf] at h
        exact ⟨rfl, h⟩
      | error a =>
        rw [hf] at h
        cases h
  | fcsr value =>
    refine Or.inr (Or.inr ⟨_, rfl, ?_⟩)
    rw [play] at h
    split
    · next hoff =>
      rw [if_pos hoff] at h
      cases h
      exact ⟨rfl, rfl⟩
    · next hon =>
      rw [if_neg hon] at h
      exact ⟨rfl, h⟩
  | register slot value =>
    rw [play] at h
    cases hr : r.store slot value with
    | ok r₁ =>
      rw [hr] at h
      refine Or.inl ⟨r₁, ?_, fpStatus_store hs hr, h⟩
      simp only [core, hr, Except.toOption, Option.getD_some]
    | error a =>
      rw [hr] at h
      cases h
  | ecall | exception cause addr | interrupt code | trap cause addr status =>
    rw [play] at h
    cases h
    exact Or.inr (Or.inl ⟨rfl, rfl⟩)
  | crash =>
    rw [play] at h
    cases h

theorem runsOff_play (h : play r f script = (.ok r', m)) (hoff : Sstatus.fpStatus r.status = .off)
    (hs : ∀ s ∈ script, s.KeepsStatus) : (∀ s ∈ m.script, s.KeepsStatus) ∧
      ∃ b, core.RunsOff root ⟨r, script⟩ b ⟨r', m.script⟩ := by
  induction script generalizing r with
  | nil => cases h
  | cons s rest ih =>
    obtain ⟨hhead, hrest⟩ := List.forall_mem_cons.mp hs
    rcases play_cons root h hhead with ⟨r₁, hx, hr₁, h⟩ | ⟨hx, rfl⟩ | ⟨i, hx, h⟩
    · obtain ⟨hm, b, hruns⟩ := ih h (hr₁ ▸ hoff) hrest
      exact ⟨hm, b, .plain hx hruns⟩
    · exact ⟨hrest, false, .trap hx⟩
    · rw [if_pos hoff] at h
      obtain ⟨rfl, rfl⟩ := h
      exact ⟨hs, true, .refuse hx (firstFpUse_raise hoff)⟩

theorem runs_play (h : play r f script = (.ok r', m)) (hon : Sstatus.fpStatus r.status ≠ .off)
    (hs : ∀ s ∈ script, s.KeepsStatus) : (∀ s ∈ m.script, s.KeepsStatus) ∧
      ∃ is, core.Runs root ⟨r, script⟩ f is ⟨r', m.script⟩ m.fp := by
  induction script generalizing r f with
  | nil => cases h
  | cons s rest ih =>
    obtain ⟨hhead, hrest⟩ := List.forall_mem_cons.mp hs
    rcases play_cons root h hhead with ⟨r₁, hx, hr₁, h⟩ | ⟨hx, rfl⟩ | ⟨i, hx, h⟩
    · obtain ⟨hm, is, hruns⟩ := ih h (hr₁ ▸ hon) hrest
      exact ⟨hm, is, .plain hx hruns⟩
    · exact ⟨hrest, [], .trap hx⟩
    · rw [if_neg hon] at h
      obtain ⟨hi, h⟩ := h
      have hdirty : Sstatus.fpStatus (stepFp r).status ≠ .off := by simp [fpStatus_stepFp]
      obtain ⟨hm, is, hruns⟩ := ih h hdirty hrest
      exact ⟨hm, i :: is, .fp hx (hi ▸ hruns)⟩

theorem enter_eq_ok {m m' : ScriptedMachine} (h : Hardware.enter root r m = .ok r' m') :
    play r m.fp m.script = (.ok r', m') := by
  simp only [Hardware.enter] at h
  split at h
  · next hplay =>
    cases h
    exact hplay
  · cases h

def unit : FpUnit ScriptedMachine core where
  file m := m.fp
  rest m := m.script
  Valid m := ∀ s ∈ m.script, s.KeepsStatus
  enter_off hv h hoff := runsOff_play (enter_eq_ok h) hoff hv
  enter_on hv h hon := runs_play (enter_eq_ok h) hon hv
  load hv h := by
    cases h
    exact ⟨hv, rfl, rfl⟩
  save hv h := by
    cases h
    exact ⟨hv, rfl, rfl⟩

end ScriptedMachine

end Sandbox
