import Sandbox.Hardware

/-! # Scripted machines

A machine that plays a script in place of sandboxed code. A run takes steps off the
script until one of them traps; a floating-point step traps while the unit is off and
is then taken again by the next run.
-/

namespace Sandbox

inductive MachineStep
  /-- Write a floating-point register. -/
  | fp (i value : Word)
  | fcsr (value : BitVec 32)
  | register (slot : Nat) (value : Word)
  | ecall
  | exception (cause addr : Word)
  | interrupt (code : Word)
  /-- Trap with a chosen status word. -/
  | trap (cause addr status : Word)
  | crash
  deriving DecidableEq, Repr

structure ScriptedMachine where
  script : List MachineStep := []
  fp : FpFile := .zero
  deriving DecidableEq

namespace ScriptedMachine

/-- The frame after a trap from user mode. -/
def raise (r : TrapFrame) (cause addr : Word) : TrapFrame :=
  (((r.set TrapFrame.causeSlot cause).set TrapFrame.badAddrSlot addr).set TrapFrame.origA0
    (r.get TrapFrame.a0)).set TrapFrame.statusSlot (Sstatus.spp.setFlag false r.status)

/-- The frame after a floating-point instruction. -/
def stepFp (r : TrapFrame) : TrapFrame :=
  (r.set TrapFrame.statusSlot (Sstatus.setFpStatus .dirty r.status)).set TrapFrame.epc (r.ip + 4)

/-- The number of the illegal-instruction exception. -/
def illegalInstruction : Word := 2

/-- The bit that marks the cause of an interrupt. -/
def interruptBit : Word := 1 <<< 63

/-- Play a script until it traps. -/
def play (r : TrapFrame) (fp : FpFile) :
    List MachineStep → Except Abort TrapFrame × ScriptedMachine
  | [] => (.error .scriptExhausted, ⟨[], fp⟩)
  | .fp i value :: rest =>
    if Sstatus.fpStatus r.status = .off then
      (.ok (raise r illegalInstruction 0), ⟨.fp i value :: rest, fp⟩)
    else match fp.setF i value with
      | .ok fp => play (stepFp r) fp rest
      | .error a => (.error a, ⟨rest, fp⟩)
  | .fcsr value :: rest =>
    if Sstatus.fpStatus r.status = .off then
      (.ok (raise r illegalInstruction 0), ⟨.fcsr value :: rest, fp⟩)
    else play (stepFp r) (fp.setFcsr value) rest
  | .register slot value :: rest =>
    match r.store slot value with
    | .ok r => play r fp rest
    | .error a => (.error a, ⟨rest, fp⟩)
  | .ecall :: rest => (.ok (raise r 8 0), ⟨rest, fp⟩)
  | .exception cause addr :: rest => (.ok (raise r cause addr), ⟨rest, fp⟩)
  | .interrupt code :: rest => (.ok (raise r (code ||| interruptBit) 0), ⟨rest, fp⟩)
  | .trap cause addr status :: rest =>
    (.ok ((raise r cause addr).set TrapFrame.statusSlot status), ⟨rest, fp⟩)
  | .crash :: rest => (.error .machineCrashed, ⟨rest, fp⟩)

instance : Hardware ScriptedMachine where
  enter _ r := fun m =>
    match play r m.fp m.script with
    | (.ok r, m) => .ok r m
    | (.error a, m) => .error a m
  load s := modify fun m => { m with fp := s }
  save _ := return (← get).fp

end ScriptedMachine

end Sandbox
