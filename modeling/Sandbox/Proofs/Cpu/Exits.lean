import Mathlib.Data.List.Basic
import Sandbox.Proofs.Cpu.Causes

/-! # What an exit tells

An exit is read off the cause, the bad address and the status of a trapped frame. The four kinds
of exits split the cause words, and each exit keeps its whole cause word. A memory fault tells
the access by the cause alone, and whether the address could be mapped by the address alone.
-/

namespace Sandbox

def InHole (a : Word) : Prop :=
  lowerTop < a ∧ a < upperBottom

theorem isCanonical_eq_false_iff {a : Word} : Canonical.isCanonical a = false ↔ InHole a := by
  simp [InHole, Canonical.isCanonical]

def Access.asked (a : Access) : Nat :=
  a.read.toNat + a.write.toNat + a.execute.toNat

namespace TrapCause

variable {c : TrapCause} {a : Access} {w : Word}

theorem ofWord_mem_iff {cs : List TrapCause} {ws : List Word} (h : ws.map ofWord = cs) :
    ofWord w ∈ cs ↔ w ∈ ws := by
  simp [← h, List.mem_map_of_injective ofWord_injective]

theorem isPageFault_iff : c.isPageFault = true ↔
    c ∈ [instructionPageFault, loadPageFault, storePageFault] := by
  cases c <;> simp [isPageFault]

theorem isSome_faultAccess_iff : c.faultAccess.isSome = true ↔
    c ∈ [instructionAccessFault, loadAccessFault, storeAccessFault, instructionPageFault,
      loadPageFault, storePageFault] := by
  cases c <;> simp [faultAccess]

/-- What the access of a fault says about the cause. -/
structure Asks (c : TrapCause) (a : Access) : Prop where
  asked : a.asked = 1
  read : a.read = true ↔ c ∈ [loadAccessFault, loadPageFault]
  write : a.write = true ↔ c ∈ [storeAccessFault, storePageFault]
  execute : a.execute = true ↔ c ∈ [instructionAccessFault, instructionPageFault]

theorem asks_of_faultAccess (h : c.faultAccess = some a) : c.Asks a := by
  cases c <;> cases h <;> constructor <;> simp [Access.asked]

theorem faultAccess_of_isInterrupt (h : c.isInterrupt = true) : c.faultAccess = none := by
  cases c <;> first | rfl | cases h

end TrapCause

namespace Exit

def cause : Exit → TrapCause
  | .syscall => .userEcall
  | .fault f => f.cause
  | .exception c => c
  | .interrupt c => c

def causeWord (e : Exit) : Word :=
  e.cause.word

variable {r : TrapFrame} {e : Exit} {c : TrapCause}

/-- The exits of a frame, one for each kind of cause. -/
inductive Of (r : TrapFrame) : Exit → Prop
  | syscall (h : TrapCause.ofWord r.cause = .userEcall) : Of r .syscall
  | interrupt (h : (TrapCause.ofWord r.cause).isInterrupt = true) :
      Of r (.interrupt (.ofWord r.cause))
  | exception (hcall : TrapCause.ofWord r.cause ≠ .userEcall)
      (hint : (TrapCause.ofWord r.cause).isInterrupt = false)
      (h : (TrapCause.ofWord r.cause).faultAccess = none) : Of r (.exception (.ofWord r.cause))
  | fault {a : Access} (h : (TrapCause.ofWord r.cause).faultAccess = some a) :
      Of r (.fault {
        cause := .ofWord r.cause
        addr := ⟨r.badAddr⟩
        access := a
        kind := faultKind (.ofWord r.cause) r.badAddr
        user := Sstatus.fromUser r.status })

theorem of_ofFrame (r : TrapFrame) : Of r (ofFrame r) := by
  unfold ofFrame
  dsimp only
  split
  next h => exact .syscall h
  next hcall =>
    split
    next h => exact .interrupt h
    next hint =>
      split
      next h => exact .exception hcall (Bool.eq_false_iff.mpr hint) h
      next h => exact .fault h

theorem Of.cause_eq (h : Of r e) : e.cause = .ofWord r.cause := by
  cases h with
  | syscall h => exact h.symm
  | interrupt => rfl
  | exception => rfl
  | fault => rfl

/-- The kind of a fault is told by the address first, and then by the cause. -/
theorem faultKind_eq_iff {a : Word} (k : FaultKind) : faultKind c a = k ↔ match k with
    | .nonCanonical => InHole a
    | .page => ¬ InHole a ∧ c.isPageFault = true
    | .access => ¬ InHole a ∧ ¬ c.isPageFault = true := by
  simp only [← isCanonical_eq_false_iff]
  cases h : Canonical.isCanonical a <;> cases hp : c.isPageFault <;> cases k <;>
    simp [faultKind, h, hp]

end Exit

structure MemoryFault.Describes (f : MemoryFault) (r : TrapFrame) : Prop where
  addr : f.addr.word = r.badAddr
  asked : f.access.asked = 1
  read : f.access.read = true ↔ r.cause ∈ [5, 13]
  write : f.access.write = true ↔ r.cause ∈ [7, 15]
  execute : f.access.execute = true ↔ r.cause ∈ [1, 12]
  nonCanonical : f.kind = .nonCanonical ↔ InHole r.badAddr
  page : f.kind = .page ↔ ¬ InHole r.badAddr ∧ r.cause ∈ [12, 13, 15]
  access : f.kind = .access ↔ ¬ InHole r.badAddr ∧ r.cause ∈ [1, 5, 7]
  user : f.user = true ↔ Sstatus.spp.flag r.status = false

/-- What an exit says about its frame. -/
structure Exit.Tells (e : Exit) (r : TrapFrame) : Prop where
  interrupt : (∃ c, e = .interrupt c) ↔ r.cause.getLsbD 63 = true
  syscall : e = .syscall ↔ r.cause = 8
  fault : (∃ f, e = .fault f) ↔ r.cause ∈ [1, 5, 7, 12, 13, 15]
  exception : (∃ c, e = .exception c) ↔
    r.cause.getLsbD 63 = false ∧ r.cause ∉ [8, 1, 5, 7, 12, 13, 15]
  causeWord : e.causeWord = r.cause
  describes : ∀ f, e = .fault f → f.Describes r

namespace Exit

theorem isSome_faultAccess_iff {w : Word} :
    (TrapCause.ofWord w).faultAccess.isSome = true ↔ w ∈ [1, 5, 7, 12, 13, 15] :=
  TrapCause.isSome_faultAccess_iff.trans (TrapCause.ofWord_mem_iff (by decide))

theorem describes_of_faultAccess {a : Access}
    (h : (TrapCause.ofWord r.cause).faultAccess = some a) :
    MemoryFault.Describes ⟨.ofWord r.cause, ⟨r.badAddr⟩, a, faultKind (.ofWord r.cause) r.badAddr,
      Sstatus.fromUser r.status⟩ r := by
  have hasks := TrapCause.asks_of_faultAccess h
  have hpage : (TrapCause.ofWord r.cause).isPageFault = true ↔ r.cause ∈ [12, 13, 15] :=
    TrapCause.isPageFault_iff.trans (TrapCause.ofWord_mem_iff (by decide))
  have hfault := isSome_faultAccess_iff.mp (Option.isSome_of_eq_some h)
  constructor
  case addr => rfl
  case asked => exact hasks.asked
  case read => exact hasks.read.trans (TrapCause.ofWord_mem_iff (by decide))
  case write => exact hasks.write.trans (TrapCause.ofWord_mem_iff (by decide))
  case execute => exact hasks.execute.trans (TrapCause.ofWord_mem_iff (by decide))
  case nonCanonical => exact faultKind_eq_iff .nonCanonical
  case page => exact (faultKind_eq_iff .page).trans (and_congr_right fun _ => hpage)
  case access =>
    refine (faultKind_eq_iff .access).trans (and_congr_right fun _ => ?_)
    rw [hpage]
    simp only [List.mem_cons, List.not_mem_nil, or_false] at hfault ⊢
    obtain h | h | h | h | h | h := hfault <;> simp [h]
  case user => simp [Sstatus.fromUser]

theorem Of.tells (h : Of r e) : e.Tells r := by
  have hcauseWord : e.causeWord = r.cause := by
    rw [causeWord, h.cause_eq, TrapCause.word_ofWord]
  have hinterrupt : (TrapCause.ofWord r.cause).isInterrupt = r.cause.getLsbD 63 :=
    TrapCause.isInterrupt_ofWord _
  have hfault := isSome_faultAccess_iff (w := r.cause)
  cases h with
  | syscall hcall =>
    have h8 := TrapCause.ofWord_eq_userEcall_iff.mp hcall
    constructor <;> simp_all
  | interrupt hint =>
    have hbit : r.cause.getLsbD 63 = true := by rw [← hinterrupt, hint]
    rw [TrapCause.faultAccess_of_isInterrupt hint] at hfault
    have h8 : r.cause ≠ 8 := by
      intro h8
      simp [h8] at hbit
    constructor <;> simp_all
  | exception hcall hint hnone =>
    have h8 := mt TrapCause.ofWord_eq_userEcall_iff.mpr hcall
    constructor <;> simp_all
  | fault haccess =>
    have hd := describes_of_faultAccess haccess
    have hmem := hfault.mp (Option.isSome_of_eq_some haccess)
    have h8 : r.cause ≠ 8 := by
      intro h8
      simp [h8] at hmem
    have hbit : r.cause.getLsbD 63 = false := by
      rw [← hinterrupt]
      cases hint : (TrapCause.ofWord r.cause).isInterrupt with
      | false => rfl
      | true => simp [TrapCause.faultAccess_of_isInterrupt hint] at haccess
    constructor <;> simp_all

/-- Every exit tells its frame, and frames that exit alike have the same cause word. -/
theorem tells_ofFrame : (∀ r, (ofFrame r).Tells r) ∧
    ∀ r r', ofFrame r = ofFrame r' → r.cause = r'.cause := by
  have htells (r : TrapFrame) := (of_ofFrame r).tells
  refine ⟨htells, fun r r' h => ?_⟩
  rw [← (htells r).causeWord, h, (htells r').causeWord]

end Exit

end Sandbox
