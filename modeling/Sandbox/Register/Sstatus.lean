import Sandbox.Register.Layout

/-! # The `sstatus` register

Previous privilege, interrupt enables and the state of the floating-point unit.
-/

namespace Sandbox

namespace Sstatus

/-- State of the floating-point unit: off traps the first use, dirty means that
the registers changed since they were last saved. -/
inductive FpStatus
  | off | initial | clean | dirty
  deriving DecidableEq, Repr

namespace FpStatus

def code : FpStatus → BitVec 2
  | .off => 0
  | .initial => 1
  | .clean => 2
  | .dirty => 3

def ofCode (c : BitVec 2) : FpStatus :=
  if c = 0 then .off else if c = 1 then .initial else if c = 2 then .clean else .dirty

def name : FpStatus → String
  | .off => "Off"
  | .initial => "Initial"
  | .clean => "Clean"
  | .dirty => "Dirty"

def all : List FpStatus := [.off, .initial, .clean, .dirty]

@[simp] theorem ofCode_code (s : FpStatus) : ofCode s.code = s := by
  cases s <;> rfl

end FpStatus

def sie : BitField := { offset := 1, width := 1 }
def spie : BitField := { offset := 5, width := 1 }
def ube : BitField := { offset := 6, width := 1 }
def spp : BitField := { offset := 8, width := 1 }
def vs : BitField := { offset := 9, width := 2 }
def fs : BitField := { offset := 13, width := 2 }
def xs : BitField := { offset := 15, width := 2 }
def sum : BitField := { offset := 18, width := 1 }
def mxr : BitField := { offset := 19, width := 1 }
def uxl : BitField := { offset := 32, width := 2 }
def sd : BitField := { offset := 63, width := 1 }

def layout : RegisterLayout where
  typeName := "Sstatus"
  fields := [
    { name := "sie", field := sie, reading := .flag },
    { name := "spie", field := spie, reading := .flag },
    { name := "ube", field := ube, reading := .flag },
    { name := "spp", field := spp, reading := .flag },
    { name := "vs", field := vs, reading := .number },
    { name := "fs", field := fs
      reading := .choice (FpStatus.all.map fun s => (s.code.toNat, s.name)) },
    { name := "xs", field := xs, reading := .number },
    { name := "sum", field := sum, reading := .flag },
    { name := "mxr", field := mxr, reading := .flag },
    { name := "uxl", field := uxl, reading := .number },
    { name := "sd", field := sd, reading := .flag }]

/-- The status that returns to user mode with interrupts enabled there and without
access to user pages from the supervisor. -/
def forUserEntry (w : Word) : Word :=
  sum.setFlag false (spie.setFlag true (spp.setFlag false w))

/-- Whether the trap was taken from user mode. -/
def fromUser (w : Word) : Bool :=
  !spp.flag w

def fpStatus (w : Word) : FpStatus :=
  .ofCode (fs.get w)

def setFpStatus (s : FpStatus) (w : Word) : Word :=
  fs.set s.code w

@[simp] theorem fpStatus_setFpStatus (s : FpStatus) (w : Word) :
    fpStatus (setFpStatus s w) = s :=
  (congrArg FpStatus.ofCode (BitField.get_set fs s.code w)).trans (FpStatus.ofCode_code s)

end Sstatus

end Sandbox
