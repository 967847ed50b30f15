import Sandbox.Register.Layout

/-! # The `scause` register

The cause of a trap. The top bit tells interrupts from synchronous exceptions.
-/

namespace Sandbox

namespace Scause

def code : BitField := { offset := 0, width := 63 }
def interrupt : BitField := { offset := 63, width := 1 }

def layout : RegisterLayout where
  typeName := "Scause"
  fields := [
    { name := "code", field := code, reading := .word },
    { name := "interrupt", field := interrupt, reading := .flag }]

end Scause

end Sandbox
