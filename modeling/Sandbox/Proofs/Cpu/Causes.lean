import Sandbox.Proofs.Cpu.FpUnit

/-! # Cause words

No two cause words read alike, so that a cause can be told by its word.
-/

namespace Sandbox

namespace TrapCause

def code : TrapCause → Word
  | .instructionMisaligned => 0
  | .instructionAccessFault | .softwareInterrupt => 1
  | .illegalInstruction => 2
  | .breakpoint => 3
  | .loadMisaligned => 4
  | .loadAccessFault | .timerInterrupt => 5
  | .storeMisaligned => 6
  | .storeAccessFault => 7
  | .userEcall => 8
  | .supervisorEcall | .externalInterrupt => 9
  | .instructionPageFault => 12
  | .loadPageFault => 13
  | .storePageFault => 15
  | .unknownException code | .unknownInterrupt code => code

theorem code_ofException (c : Word) : (ofException c).code = c := by
  unfold ofException
  split <;> first | rfl | exact (BitVec.eq_of_toNat_eq ‹_›).symm

theorem code_ofInterrupt (c : Word) : (ofInterrupt c).code = c := by
  unfold ofInterrupt
  split <;> first | rfl | exact (BitVec.eq_of_toNat_eq ‹_›).symm

theorem isInterrupt_ofException (c : Word) : (ofException c).isInterrupt = false := by
  unfold ofException
  split <;> rfl

theorem isInterrupt_ofInterrupt (c : Word) : (ofInterrupt c).isInterrupt = true := by
  unfold ofInterrupt
  split <;> rfl

theorem code_ofWord (w : Word) : (ofWord w).code = Scause.code.word w := by
  unfold ofWord
  split
  · exact code_ofInterrupt _
  · exact code_ofException _

theorem isInterrupt_ofWord (w : Word) : (ofWord w).isInterrupt = Scause.interrupt.flag w := by
  unfold ofWord
  split
  · next h => rw [isInterrupt_ofInterrupt, h]
  · next h => rw [isInterrupt_ofException, Bool.eq_false_iff.mpr h]

def word (c : TrapCause) : Word :=
  Scause.interrupt.setFlag c.isInterrupt c.code

@[simp] theorem word_ofWord (w : Word) : (ofWord w).word = w := by
  ext i hi
  have hset := BitField.getLsbD_setFlag (f := Scause.interrupt) rfl (ofWord w).isInterrupt
    (ofWord w).code hi
  rw [← BitVec.getLsbD_eq_getElem, ← BitVec.getLsbD_eq_getElem, word, hset, code_ofWord,
    isInterrupt_ofWord]
  by_cases h63 : i = Scause.interrupt.offset
  · rw [if_pos h63, h63, BitField.flag]
  · have hlt : i < 63 := by
      simp only [Scause.interrupt] at h63
      omega
    simp [h63, hi, hlt, BitField.word, BitField.get, Scause.code]

theorem ofWord_injective : Function.Injective ofWord :=
  Function.LeftInverse.injective word_ofWord

theorem ofWord_eq_illegalInstruction_iff {w : Word} :
    ofWord w = .illegalInstruction ↔ w = 2 :=
  ofWord_injective.eq_iff' (by decide)

theorem ofWord_eq_userEcall_iff {w : Word} : ofWord w = .userEcall ↔ w = 8 :=
  ofWord_injective.eq_iff' (by decide)

end TrapCause

namespace Exit

theorem ofFrame_eq_syscall_iff {r : TrapFrame} : ofFrame r = .syscall ↔ r.cause = 8 := by
  rw [← TrapCause.ofWord_eq_userEcall_iff]
  unfold ofFrame
  dsimp only
  split
  · next h => simp [h]
  · next h =>
    split
    · simp [h]
    · split <;> simp [h]

end Exit

namespace TrapFrame

theorem firstFpUse_iff {r : TrapFrame} :
    r.FirstFpUse ↔ Sstatus.fpStatus r.status = .off ∧ r.cause = 2 := by
  rw [FirstFpUse, TrapCause.ofWord_eq_illegalInstruction_iff]

theorem get_kept (r : TrapFrame) (i : Fin 36) :
    r.kept.get i = if i = epc ∧ r.cause = 8 then r.get i + 4 else r.get i := by
  unfold kept
  simp only [Exit.ofFrame_eq_syscall_iff]
  by_cases hcall : r.cause = 8
  · rw [if_pos hcall, get_set]
    by_cases hi : i = epc
    · rw [if_pos hi.symm, if_pos ⟨hi, hcall⟩, hi, ip]
    · rw [if_neg (Ne.symm hi), if_neg fun h => hi h.1]
  · rw [if_neg hcall, if_neg fun h => hcall h.2]

end TrapFrame

end Sandbox
