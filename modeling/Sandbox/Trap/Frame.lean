import Sandbox.Register.Scause
import Sandbox.Register.Sstatus

/-! # Trap frames

The registers of a sandboxed context: the program counter, the 31 integer
registers, and the status, fault address and cause of the last trap. The first
argument of a system call is kept apart, since its register also returns the result.
-/

namespace Sandbox

/-- Slots of a frame. -/
def registerSlots : Nat := 36

structure TrapFrame where
  slots : Vector Word 36
  deriving DecidableEq

namespace TrapFrame

def epc : Fin 36 := 0
def ra : Fin 36 := 1
def sp : Fin 36 := 2
def gp : Fin 36 := 3
def tp : Fin 36 := 4
def a0 : Fin 36 := 10
def a7 : Fin 36 := 17
def statusSlot : Fin 36 := 32
def badAddrSlot : Fin 36 := 33
def causeSlot : Fin 36 := 34
def origA0 : Fin 36 := 35

/-- The frame of a context that has not run. -/
def zero : TrapFrame := ⟨Vector.replicate 36 0⟩

def get (r : TrapFrame) (i : Fin 36) : Word := r.slots[i]

def set (r : TrapFrame) (i : Fin 36) (w : Word) : TrapFrame := ⟨r.slots.set i w⟩

/-- Store into a slot whose number may be out of range. -/
def store (r : TrapFrame) (i : Nat) (w : Word) : Except Abort TrapFrame :=
  if h : i < 36 then .ok (r.set ⟨i, h⟩ w) else .error .indexOutOfBounds

def ip (r : TrapFrame) : Word := r.get epc
def stack (r : TrapFrame) : Word := r.get sp
def threadPointer (r : TrapFrame) : Word := r.get tp
def returnValue (r : TrapFrame) : Word := r.get a0
def status (r : TrapFrame) : Word := r.get statusSlot
def cause (r : TrapFrame) : Word := r.get causeSlot
def badAddr (r : TrapFrame) : Word := r.get badAddrSlot
def syscallNumber (r : TrapFrame) : Word := r.get a7

/-- The places of a frame that are written by name. -/
inductive Place
  | ip | stack | threadPointer | returnValue | status
  /-- Any slot, by a number that may be out of range. -/
  | slot (i : Nat)
  deriving DecidableEq, Repr

/-- Write a place of a frame. -/
def write (r : TrapFrame) (w : Word) : Place → Except Abort TrapFrame
  | .ip => .ok (r.set epc w)
  | .stack => .ok (r.set sp w)
  | .threadPointer => .ok (r.set tp w)
  | .returnValue => .ok (r.set a0 w)
  | .status => .ok (r.set statusSlot w)
  | .slot i => r.store i w

/-- The six arguments of a system call, the first as it was at the trap. -/
def syscallArgs (r : TrapFrame) : List Word :=
  [r.get origA0, r.get 11, r.get 12, r.get 13, r.get 14, r.get 15]

/-- The slots that are not zero. -/
def nonZero (r : TrapFrame) : List (Nat × Word) :=
  (List.finRange 36).filterMap fun i => if r.get i = 0 then none else some (i.val, r.get i)

def debugText (r : TrapFrame) : String :=
  Text.openRecord "Registers" [("epc", r.ip.hex), ("sp", r.stack.hex),
    ("a0", r.returnValue.hex), ("a7", toString r.syscallNumber.toNat),
    ("status", Sstatus.layout.debugText r.status), ("cause", Scause.layout.debugText r.cause),
    ("stval", r.badAddr.hex)]

@[simp] theorem get_set (r : TrapFrame) (i j : Fin 36) (w : Word) :
    (r.set i w).get j = if i = j then w else r.get j := by
  simp only [get, set, Fin.getElem_fin, Vector.getElem_set, Fin.ext_iff]

end TrapFrame

end Sandbox
