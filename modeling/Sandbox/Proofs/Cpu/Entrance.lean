import Sandbox.Proofs.Cpu.FailedFlush
import Sandbox.Proofs.Cpu.Turns
import Sandbox.Proofs.Entry.Fields
import Sandbox.Proofs.Tag.Bindings

/-! # What an entry starts from

The sandbox is entered under a tag that the pool lends to the space and to nobody else, with the
root word of this space, and with a frame that differs from the registers only in the status word.
Whatever status the context or the machine has left there, the entry leaves the supervisor.
-/

namespace Sandbox

/-- A frame `f` for an entry with the registers `r`, and with this state of the floating-point
unit. -/
structure TrapFrame.Prepared (fp : Sstatus.FpStatus) (r f : TrapFrame) : Prop where
  get_eq : ∀ i, i ≠ statusSlot → f.get i = r.get i
  /-- The entry is to user mode. -/
  spp : Sstatus.spp.flag f.status = false
  spie : Sstatus.spie.flag f.status = true
  sum : Sstatus.sum.flag f.status = false
  sie : Sstatus.sie.flag f.status = false
  fs : Sstatus.fpStatus f.status = fp
  /-- All other bits are those of `r`. -/
  kept : ∀ i, i ∉ [1, 5, 8, 13, 14, 18] → f.status.getLsbD i = r.status.getLsbD i

theorem Switching.getLsbD_entryStatus (fp : Sstatus.FpStatus) (w : Word) {i : Nat} (hi : i < 64) :
    (entryStatus fp w).getLsbD i =
      if i = 13 ∨ i = 14 then fp.code.getLsbD (i - 13)
      else if i = 1 then false
      else if i = 18 then false
      else if i = 5 then true
      else if i = 8 then false
      else w.getLsbD i := by
  have hset := BitField.getLsbD_set Sstatus.fs fp.code
    (Sstatus.sie.setFlag false (Sstatus.forUserEntry w)) i hi
  have hfs : (13 ≤ i ∧ i < 13 + 2) ↔ i = 13 ∨ i = 14 := by omega
  refine hset.trans (if_congr hfs rfl ?_)
  rw [BitField.getLsbD_setFlag (f := Sstatus.sie) rfl _ _ hi, Sstatus.getLsbD_forUserEntry _ hi]
  rfl

theorem TrapFrame.status_armed (fp : Sstatus.FpStatus) (r : TrapFrame) :
    (r.armed fp).status = Switching.entryStatus fp r.status := by
  simp [armed, status]

theorem TrapFrame.prepared_armed (fp : Sstatus.FpStatus) (r : TrapFrame) :
    Prepared fp r (r.armed fp) := by
  have hbit {i : Nat} (hi : i < 64) := Switching.getLsbD_entryStatus fp r.status hi
  rw [← status_armed] at hbit
  constructor
  case get_eq =>
    intro i hi
    simp [armed, hi.symm]
  case spp => exact hbit (i := 8) (by decide)
  case spie => exact hbit (i := 5) (by decide)
  case sum => exact hbit (i := 18) (by decide)
  case sie => exact hbit (i := 1) (by decide)
  case fs => exact fpStatus_armed fp r
  case kept =>
    intro i hi
    refine Word.getLsbD_eq_of_lt fun hlt => ?_
    rw [hbit hlt]
    simp_all

namespace Switching

open MachineCall

variable {A : Architecture} {μ : Type} {s t u : Switching μ} {space : AddressSpace A}
  {flush : Bool} {tag : Asid} {root : Word} {l : List MachineCall} {T : List Asid}

/-- The tag and the root are those under which the CPU runs the space. The pool lends the tag to
its owner and to nobody else. -/
structure Binds (space : AddressSpace A) (tag : Asid) (root : Word) (u : Switching μ) : Prop where
  lookup : u.tagging.pool.lookup u.tagging.owners space.owner = some tag
  slot : u.tagging.owners.tag? space.owner = some tag
  alone : ∀ o, o ≠ space.owner → u.tagging.owners.tag? o ≠ some tag
  loaded : u.cpu.tag = some tag
  root : u.cpu.root = some root
  ne_zero : tag ≠ 0
  le_limit : tag ≤ A.tagLimit

/-- The entries of a switch to a context with the registers `r`. -/
inductive Entries (root : Word) (r : TrapFrame) : List MachineCall → Prop
  | once {f : TrapFrame} {result : Option TrapFrame} (hf : r.Prepared .off f) :
      Entries root r [.enter root f result]
  | twice {f r' f' : TrapFrame} {result : Option TrapFrame} (hf : r.Prepared .off f)
      (hf' : r'.Prepared .clean f') :
      Entries root r [.enter root f (some r'), .enter root f' result]

/-- The states in which a switch from `s` enters the sandbox. -/
def EntersIn [Hardware μ] (space : AddressSpace A) (flush : Bool) (s u : Switching μ) : Prop :=
  ∃ tag root t, Readies space flush s tag root t ∧ EntryState space.owner tag root t u

theorem Turns.entries {r : TrapFrame} (h : Turns root (r.armed .off) l) : Entries root r l := by
  cases h with
  | once => exact .once (r.prepared_armed .off)
  | twice r' => exact .twice (r.prepared_armed .off) (r'.prepared_armed .clean)

theorem Binds.of_keeps (h : Binds space tag root t) (hkeeps : t.Keeps u) :
    Binds space tag root u := by
  obtain ⟨htag, hroot, hpool, howners⟩ := hkeeps
  constructor
  case lookup => simpa only [hpool, howners] using h.lookup
  case slot => simpa only [howners] using h.slot
  case alone => simpa only [howners] using h.alone
  case loaded => exact htag.trans h.loaded
  case root => exact hroot.trans h.root
  case ne_zero => exact h.ne_zero
  case le_limit => exact h.le_limit

theorem binds_begun {x : Tagging} {a : Assignment} (hx : s.tagging.Assigns space.owner (.ok a) x)
    (hs : s.tagging.Sound T) (hT : ∀ t ∈ T, t ≤ A.tagLimit) (flush : Bool) (root : Word) :
    Binds space a.tag root ((s.prepared a x flush).begun a.tag root) := by
  have hsound := hx.sound hs
  have hslot := hx.tag?_eq hs
  have hmem := hx.mem_tags hs
  have hne : a.tag ≠ 0 := fun h0 => hsound.agreement.nonzero (h0 ▸ hmem)
  constructor
  case lookup => simpa [begun] using hsound.lookup_eq_some_iff.mpr ⟨hslot, hne⟩
  case slot => simpa [begun] using hslot
  case alone =>
    intro o ho htag
    exact ho (hsound.owner_unique hslot (by simpa [begun] using htag) hne)
  case loaded => rfl
  case root => rfl
  case ne_zero => exact hne
  case le_limit => exact hT _ hmem

theorem Readies.binds (h : Readies space flush s tag root t) (hs : s.tagging.Sound T)
    (ho : s.tagging.owners.isLive space.owner = true) (hT : ∀ t ∈ T, t ≤ A.tagLimit) :
    A.rootWord space.root tag (!flush) = .ok root ∧ Binds space tag root t := by
  obtain ⟨s', L, hprep, hroot, rfl⟩ := h
  rcases hs.assign_run ho #[] with ⟨a, x, L', ha, hx⟩ | ⟨e, x, L', he, -⟩
  · by_cases hret : flush ∨ s.cpu.seen a.tag ≠ some a.epoch →
        a.tag ∉ x.trace.failing (.onCpu (some s.cpu.id))
    · cases (prepareTag_run (b := flush) ha hret).symm.trans hprep
      have hbinds := binds_begun hx hs hT flush root
      have htag := Owners.tag_eq hbinds.slot
      exact ⟨htag ▸ hroot, hbinds⟩
    · obtain ⟨hflush, hfail⟩ := Classical.not_imp.mp hret
      cases (prepareTag_run_failing ha hflush (not_not.mp hfail)).symm.trans hprep
  · cases (prepareTag_run_stuck he).symm.trans hprep

theorem Readies.frame_eq (h : Readies space flush s tag root t) :
    t.cpu.frame = s.context.registers.armed .off := by
  obtain ⟨s', ⟨epochs, x, rfl⟩, rfl⟩ := h.begun_eq
  rfl

theorem Visits.exists_entered [Hardware μ] (h : Visits space flush s l u)
    (henter : ∃ call ∈ l, call.isEnter = true) :
    ∃ tag root t, Readies space flush s tag root t ∧ Entered space.owner tag root t l u := by
  cases h with
  | unready => simp at henter
  | entered hready h => exact ⟨_, _, _, hready, h⟩

end Switching

namespace Fleet

open MachineCall Switching

variable {A : Architecture} {μ : Type} {F : Fleet A μ}

/-- Whatever was called before and whatever the CPU, a switch that enters the sandbox at all does so
under the tag that the pool has bound to the space and to nobody else, and with the root word of
the space under this tag. The frame is that of the context the first time, and the one that the
machine has left the second time, but for a status word that drops to user mode. -/
theorem Arises.enters_bound [Hardware μ] (h : Arises F) {space : AddressSpace A}
    (ho : F.owners.isLive space.owner = true) (cpu : Cpu μ) (context : Context) (flush : Bool)
    (henter : ∃ call ∈ calls ⟨cpu, context, F.tagging⟩ space flush, call.isEnter = true) :
    ∃ tag root, A.rootWord space.root tag (!flush) = .ok root ∧
      Entries root context.registers
        ((calls ⟨cpu, context, F.tagging⟩ space flush).filter isEnter) ∧
      (∀ call ∈ calls ⟨cpu, context, F.tagging⟩ space flush, call.isEnter = true →
        ∃ u result, EntersIn space flush ⟨cpu, context, F.tagging⟩ u ∧
          call = .enter root u.cpu.frame result ∧ Binds space tag root u) ∧
      Binds space tag root ((run space flush).final ⟨cpu, context, F.tagging⟩) := by
  by_cases hmode : cpu.mode = .supervisor
  · obtain ⟨T, hF, hT⟩ := h.regular_le
    obtain ⟨tag, root, t, hready, hentered⟩ :=
      (run_visits (s := ⟨cpu, context, F.tagging⟩) space flush hmode).exists_entered henter
    obtain ⟨hroot, hbinds⟩ := hready.binds hF.sound ho hT
    refine ⟨tag, root, hroot, ?_, fun call hcall hisEnter => ?_, hbinds.of_keeps hentered.keeps⟩
    · have hturns := hentered.turns
      rw [hready.frame_eq] at hturns
      exact hturns.entries
    · obtain ⟨u, result, hu, rfl⟩ := hentered.states call hcall hisEnter
      exact ⟨u, result, ⟨tag, root, t, hready, hu⟩, rfl, hbinds.of_keeps hu.keeps⟩
  · rw [calls_of_sandboxed (s := ⟨cpu, context, F.tagging⟩) space flush hmode] at henter
    simp at henter

def allButFp : Word :=
  Sstatus.setFpStatus .off (BitVec.allOnes 64)

/-- The CPU of `contended` as its code is about to use the floating-point unit, and to claim in its
status that it has come from the supervisor. -/
def pretender : Online ScriptedMachine :=
  { contender with cpu.machine := ⟨[.trap 2 0 allButFp, .ecall], .zero⟩ }

def besieged : Fleet .riscv64 ScriptedMachine :=
  { contended with cpus := [pretender] }

def siege : Switching ScriptedMachine :=
  ⟨pretender.cpu, ⟨TrapFrame.zero.set TrapFrame.statusSlot (BitVec.allOnes 64), .zero⟩,
    besieged.tagging⟩

theorem arises_besieged : Arises besieged :=
  reachable_contended.arises.move
    (.call (.tamper (i := 0) (c := contender) rfl pretender.cpu.machine))

/-- The second space takes the only tag from the first one. Its code is entered twice in user
mode, in spite of what the context and the code have in the status word. -/
theorem enters_bound_siege : ∃ root, (siege.calls (spaceOf ⟨2⟩) false).countP isEnter = 2 ∧
    Entries root siege.context.registers
      ((siege.calls (spaceOf ⟨2⟩) false).filter isEnter) ∧
    Binds (spaceOf ⟨2⟩) 2 root ((run (spaceOf ⟨2⟩) false).final siege) := by
  have hlive : besieged.owners.isLive (spaceOf ⟨2⟩).owner = true := by decide +kernel
  have henter : ∃ call ∈ siege.calls (spaceOf ⟨2⟩) false, call.isEnter = true := by
    decide +kernel
  have hloaded : ((run (spaceOf ⟨2⟩) false).final siege).cpu.tag = some 2 := by decide +kernel
  obtain ⟨tag, root, -, hentries, -, hbinds⟩ :=
    arises_besieged.enters_bound hlive siege.cpu siege.context false henter
  obtain rfl := Option.some.inj (hbinds.loaded.symm.trans hloaded)
  exact ⟨root, by decide +kernel, hentries, hbinds⟩

end Fleet

end Sandbox
