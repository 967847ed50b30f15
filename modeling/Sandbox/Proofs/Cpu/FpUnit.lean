import Sandbox.Cpu
import Sandbox.Proofs.Memory.Triple

/-! # Floating-point units

A core runs code one move at a time. Most moves have nothing to do with the floating-point file;
the others are floating-point instructions, which the core refuses while the unit is off. A
machine has such a unit if its entries run like those of a core.
-/

namespace Sandbox

/-- A frame, and all of a machine but its floating-point file. -/
@[ext]
structure Scene (ρ : Type) where
  frame : TrapFrame
  rest : ρ

/-- A floating-point instruction where the code has come to it: the file that it leaves, and
what becomes of everything else. -/
abbrev FpInstr (ρ : Type) := FpFile → FpFile × Scene ρ

inductive Move (ρ : Type)
  /-- An instruction that has nothing to do with the file. -/
  | plain (y : Scene ρ)
  | fp (i : FpInstr ρ)
  | trap (y : Scene ρ)

structure Core (ρ : Type) where
  next : Word → Scene ρ → Move ρ
  /-- The trap that answers a floating-point instruction while the unit is off. -/
  refuse : Word → Scene ρ → Scene ρ

namespace TrapFrame

/-- The unit was off, and the trap is for an instruction that cannot be run. -/
def FirstFpUse (r : TrapFrame) : Prop :=
  Sstatus.fpStatus r.status = .off ∧ TrapCause.ofWord r.cause = .illegalInstruction

def armed (fp : Sstatus.FpStatus) (r : TrapFrame) : TrapFrame :=
  r.set statusSlot (Switching.entryStatus fp r.status)

@[simp] theorem fpStatus_armed (fp : Sstatus.FpStatus) (r : TrapFrame) :
    Sstatus.fpStatus (r.armed fp).status = fp := by
  rw [armed, status, get_set, if_pos rfl, Switching.entryStatus, Sstatus.fpStatus_setFpStatus]

def kept (r : TrapFrame) : TrapFrame :=
  if Exit.ofFrame r = .syscall then r.set epc (r.ip + 4) else r

end TrapFrame

namespace FpInstr

variable {ρ : Type}

/-- The instruction works on the file alone: nothing in the file shows anywhere else. -/
def Discreet (i : FpInstr ρ) : Prop :=
  ∀ f g, (i f).2 = (i g).2

def runAll (is : List (FpInstr ρ)) (f : FpFile) : FpFile :=
  is.foldl (fun f i => (i f).1) f

theorem runAll_append (is is' : List (FpInstr ρ)) (f : FpFile) :
    runAll (is ++ is') f = runAll is' (runAll is f) :=
  List.foldl_append

end FpInstr

namespace Core

variable {ρ : Type} {C : Core ρ} {root : Word} {x y z : Scene ρ}

/-- With the unit off, the code runs until it traps or a floating-point instruction is refused.
There is no file in it. -/
inductive RunsOff (C : Core ρ) (root : Word) : Scene ρ → (refused : Bool) → Scene ρ → Prop
  | plain {x y z : Scene ρ} {b : Bool} (hx : C.next root x = .plain y) (h : RunsOff C root y b z) :
      RunsOff C root x b z
  | trap {x y : Scene ρ} (hx : C.next root x = .trap y) : RunsOff C root x false y
  | refuse {x : Scene ρ} {i : FpInstr ρ} (hx : C.next root x = .fp i)
      (hfirst : (C.refuse root x).frame.FirstFpUse) : RunsOff C root x true (C.refuse root x)

/-- With the unit on, the code runs on a file until it traps. -/
inductive Runs (C : Core ρ) (root : Word) :
    Scene ρ → FpFile → List (FpInstr ρ) → Scene ρ → FpFile → Prop
  | plain {x y z : Scene ρ} {f g : FpFile} {is : List (FpInstr ρ)}
      (hx : C.next root x = .plain y) (h : Runs C root y f is z g) : Runs C root x f is z g
  | fp {x z : Scene ρ} {f g : FpFile} {i : FpInstr ρ} {is : List (FpInstr ρ)}
      (hx : C.next root x = .fp i) (h : Runs C root (i f).2 (i f).1 is z g) :
      Runs C root x f (i :: is) z g
  | trap {x y : Scene ρ} {f : FpFile} (hx : C.next root x = .trap y) : Runs C root x f [] y f

theorem RunsOff.firstFpUse {b : Bool} (h : C.RunsOff root x b y) (hb : b = true) :
    y.frame.FirstFpUse := by
  induction h with
  | plain _ _ ih => exact ih hb
  | trap => cases hb
  | refuse _ hfirst => exact hfirst

theorem RunsOff.unique {b c : Bool} (h : C.RunsOff root x b y) (h' : C.RunsOff root x c z) :
    y = z := by
  induction h with
  | plain hx _ ih =>
    cases h' with
    | plain hx' h' =>
      cases hx.symm.trans hx'
      exact ih h'
    | trap hx' | refuse hx' _ => cases hx.symm.trans hx'
  | trap hx =>
    cases h' with
    | trap hx' =>
      cases hx.symm.trans hx'
      rfl
    | plain hx' _ | refuse hx' _ => cases hx.symm.trans hx'
  | refuse hx _ =>
    cases h' with
    | refuse => rfl
    | plain hx' _ | trap hx' => cases hx.symm.trans hx'

theorem Runs.file_eq {f g : FpFile} {is : List (FpInstr ρ)} (h : C.Runs root x f is z g) :
    g = FpInstr.runAll is f := by
  induction h with
  | plain _ _ ih => exact ih
  | fp _ _ ih => exact ih
  | trap => rfl

/-- Two runs go the same way if they have the same file, or if no instruction shows the file. -/
theorem Runs.alike {z' : Scene ρ} {f f' g g' : FpFile} {is is' : List (FpInstr ρ)}
    (h : C.Runs root x f is z g) (h' : C.Runs root x f' is' z' g')
    (hf : f' = f ∨ ∀ i ∈ is, i.Discreet) : is' = is ∧ z' = z := by
  induction h generalizing f' is' with
  | plain hx _ ih =>
    cases h' with
    | plain hx' h' =>
      cases hx.symm.trans hx'
      exact ih h' hf
    | fp hx' _ | trap hx' => cases hx.symm.trans hx'
  | @fp x z f g i is hx _ ih =>
    cases h' with
    | fp hx' h' =>
      cases hx.symm.trans hx'
      -- Only here might the file decide where the code goes on.
      have hscene : (i f').2 = (i f).2 := by
        rcases hf with rfl | hd
        · rfl
        · exact hd i List.mem_cons_self f' f
      rw [hscene] at h'
      obtain ⟨rfl, rfl⟩ := ih h' (hf.imp (fun heq => by rw [heq])
        fun hd j hj => hd j (List.mem_cons_of_mem i hj))
      exact ⟨rfl, rfl⟩
    | plain hx' _ | trap hx' => cases hx.symm.trans hx'
  | trap hx =>
    cases h' with
    | trap hx' =>
      cases hx.symm.trans hx'
      exact ⟨rfl, rfl⟩
    | plain hx' _ | fp hx' _ => cases hx.symm.trans hx'

/-- What a context does in one switch on a file of its own. With the unit off it runs until it
traps; if the trap is a first use, it runs on with the unit on. -/
inductive Stays (C : Core ρ) (root : Word) (x : Scene ρ) (f : FpFile) :
    List (FpInstr ρ) → Scene ρ → FpFile → Prop
  | light {y : Scene ρ} (h : C.RunsOff root { x with frame := x.frame.armed .off } false y)
      (hno : ¬ y.frame.FirstFpUse) : Stays C root x f [] y f
  | full {b : Bool} {y z : Scene ρ} {g : FpFile} {is : List (FpInstr ρ)}
      (h : C.RunsOff root { x with frame := x.frame.armed .off } b y)
      (hfirst : y.frame.FirstFpUse)
      (hrun : C.Runs root { y with frame := y.frame.armed .clean } f is z g) :
      Stays C root x f is z g

def Confined (C : Core ρ) : Prop :=
  ∀ root x i, C.next root x = .fp i → i.Discreet

theorem Runs.discreet {f g : FpFile} {is : List (FpInstr ρ)} (h : C.Runs root x f is z g)
    (hC : C.Confined) : ∀ i ∈ is, i.Discreet := by
  induction h with
  | plain _ _ ih => exact ih
  | fp hx _ ih => exact List.forall_mem_cons.mpr ⟨hC _ _ _ hx, ih⟩
  | trap => exact List.forall_mem_nil _

theorem Stays.discreet {f g : FpFile} {is : List (FpInstr ρ)} (h : C.Stays root x f is z g)
    (hC : C.Confined) : ∀ i ∈ is, i.Discreet := by
  cases h with
  | light => exact List.forall_mem_nil _
  | full _ _ hrun => exact hrun.discreet hC

theorem Stays.file_eq {f g : FpFile} {is : List (FpInstr ρ)} (h : C.Stays root x f is z g) :
    g = FpInstr.runAll is f := by
  cases h with
  | light => rfl
  | full _ _ hrun => exact hrun.file_eq

end Core

/-- The machine runs code as a core does, and the file of its unit can be loaded and saved. What
the file holds after an entry with the unit off is of no account. -/
structure FpUnit (μ : Type) [Hardware μ] {ρ : Type} (C : Core ρ) where
  file : μ → FpFile
  rest : μ → ρ
  /-- The states in which the machine does all this. -/
  Valid : μ → Prop
  enter_off : ∀ {root : Word} {r r' : TrapFrame} {m m' : μ}, Valid m →
    Hardware.enter root r m = .ok r' m' → Sstatus.fpStatus r.status = .off →
      Valid m' ∧ ∃ b, C.RunsOff root ⟨r, rest m⟩ b ⟨r', rest m'⟩
  enter_on : ∀ {root : Word} {r r' : TrapFrame} {m m' : μ}, Valid m →
    Hardware.enter root r m = .ok r' m' → Sstatus.fpStatus r.status ≠ .off →
      Valid m' ∧ ∃ is, C.Runs root ⟨r, rest m⟩ (file m) is ⟨r', rest m'⟩ (file m')
  load : ∀ {f : FpFile} {m m' : μ}, Valid m → Hardware.load f m = .ok () m' →
    Valid m' ∧ rest m' = rest m ∧ file m' = f
  save : ∀ {f g : FpFile} {m m' : μ}, Valid m → Hardware.save f m = .ok g m' →
    Valid m' ∧ rest m' = rest m ∧ g = file m

end Sandbox
