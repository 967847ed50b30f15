import Sandbox.Access
import Sandbox.Register.Scause

/-! # Trap causes

The cause word read as an exception or an interrupt. Codes without a name are
kept, so that no two cause words read alike.
-/

namespace Sandbox

inductive TrapCause
  | instructionMisaligned
  | instructionAccessFault
  | illegalInstruction
  | breakpoint
  | loadMisaligned
  | loadAccessFault
  | storeMisaligned
  | storeAccessFault
  | userEcall
  | supervisorEcall
  | instructionPageFault
  | loadPageFault
  | storePageFault
  | softwareInterrupt
  | timerInterrupt
  | externalInterrupt
  | unknownException (code : Word)
  | unknownInterrupt (code : Word)
  deriving DecidableEq, Repr

namespace TrapCause

def ofInterrupt (code : Word) : TrapCause :=
  match code.toNat with
  | 1 => .softwareInterrupt
  | 5 => .timerInterrupt
  | 9 => .externalInterrupt
  | _ => .unknownInterrupt code

def ofException (code : Word) : TrapCause :=
  match code.toNat with
  | 0 => .instructionMisaligned
  | 1 => .instructionAccessFault
  | 2 => .illegalInstruction
  | 3 => .breakpoint
  | 4 => .loadMisaligned
  | 5 => .loadAccessFault
  | 6 => .storeMisaligned
  | 7 => .storeAccessFault
  | 8 => .userEcall
  | 9 => .supervisorEcall
  | 12 => .instructionPageFault
  | 13 => .loadPageFault
  | 15 => .storePageFault
  | _ => .unknownException code

/-- The cause that a cause word stands for. -/
def ofWord (w : Word) : TrapCause :=
  if Scause.interrupt.flag w then ofInterrupt (Scause.code.word w)
  else ofException (Scause.code.word w)

def isInterrupt : TrapCause → Bool
  | .softwareInterrupt | .timerInterrupt | .externalInterrupt | .unknownInterrupt _ => true
  | _ => false

/-- The access behind a memory fault. -/
def faultAccess : TrapCause → Option Access
  | .instructionPageFault | .instructionAccessFault => some ⟨false, false, true⟩
  | .loadPageFault | .loadAccessFault => some ⟨true, false, false⟩
  | .storePageFault | .storeAccessFault => some ⟨false, true, false⟩
  | _ => none

/-- Whether the mapping, and not the memory behind it, refused the access. -/
def isPageFault : TrapCause → Bool
  | .instructionPageFault | .loadPageFault | .storePageFault => true
  | _ => false

def name : TrapCause → String
  | .instructionMisaligned => "InstructionMisaligned"
  | .instructionAccessFault => "InstructionAccessFault"
  | .illegalInstruction => "IllegalInstruction"
  | .breakpoint => "Breakpoint"
  | .loadMisaligned => "LoadMisaligned"
  | .loadAccessFault => "LoadAccessFault"
  | .storeMisaligned => "StoreMisaligned"
  | .storeAccessFault => "StoreAccessFault"
  | .userEcall => "UserEcall"
  | .supervisorEcall => "SupervisorEcall"
  | .instructionPageFault => "InstructionPageFault"
  | .loadPageFault => "LoadPageFault"
  | .storePageFault => "StorePageFault"
  | .softwareInterrupt => "SoftwareInterrupt"
  | .timerInterrupt => "TimerInterrupt"
  | .externalInterrupt => "ExternalInterrupt"
  | .unknownException _ => "UnknownException"
  | .unknownInterrupt _ => "UnknownInterrupt"

/-- The code of a cause without a name of its own. -/
def code? : TrapCause → Option Word
  | .unknownException code | .unknownInterrupt code => some code
  | _ => none

def debugText (c : TrapCause) : String :=
  match c.code? with
  | some code => Text.wrapped c.name (toString code.toNat)
  | none => c.name

end TrapCause

end Sandbox
