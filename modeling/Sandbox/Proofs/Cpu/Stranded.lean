import Sandbox.Proofs.Cpu.FailedFlush
import Sandbox.Proofs.Cpu.Turns

/-! # Stranded CPUs

An entry that does not come back leaves its CPU sandboxed, and no switch on this CPU does anything
from then on. The pool, the slots and the other CPUs do not notice: what a switch leaves to them
does not depend on the machine at all.
-/

namespace Sandbox

namespace Switching

variable {A : Architecture} {μ ν : Type} [Hardware μ] [Hardware ν] {s : Switching μ}

/-- The pool and the slots that a switch leaves are the same on any two machines, whether these
behave alike or not. -/
theorem final_tagging_map (f : μ → ν) (space : AddressSpace A) (flush : Bool) :
    ((run space flush).final (s.map f)).tagging.pool =
        ((run space flush).final s).tagging.pool ∧
      ((run space flush).final (s.map f)).tagging.owners =
        ((run space flush).final s).tagging.owners := by
  by_cases hmode : s.cpu.mode = .supervisor
  · have hrun := run_eq space flush hmode #[]
    have hrun' := run_eq (s := s.map f) space flush hmode #[]
    have hfollow := follows_prepareTag (f := f) space.owner flush ⟨s, #[]⟩
    cases hprep : prepareTag space.owner flush ⟨s, #[]⟩ with
    | error e u =>
      rw [hprep] at hfollow
      unfold Action.final
      rw [hrun.trans (Action.bind_run_error hprep), hrun'.trans (Action.bind_run_error hfollow)]
      exact ⟨rfl, rfl⟩
    | ok tag u =>
      rw [hprep] at hfollow
      have hran := (runs_proceed space flush).ran_final (hrun.trans (Action.bind_run hprep))
      have hran' := (runs_proceed space flush).ran_final (hrun'.trans (Action.bind_run hfollow))
      exact ⟨hran'.pool.trans hran.pool.symm, hran'.owners.trans hran.owners.symm⟩
  · rw [run_final_of_sandboxed space flush hmode,
      run_final_of_sandboxed (s := s.map f) space flush hmode]
    exact ⟨rfl, rfl⟩

end Switching

namespace Fleet

open MachineCall Switching

variable {A : Architecture} {μ : Type} {F F' : Fleet A μ} {c : Online μ} {i : Nat}
  {l : List MachineCall} {ls : List (List MachineCall)}

structure SameBut (i : Nat) (F F' : Fleet A μ) : Prop where
  kernel : F'.kernel = F.kernel
  owners : F'.owners = F.owners
  cpus : ∀ j, j ≠ i → F'.cpus[j]? = F.cpus[j]?

/-- The CPU at `i` switches, and whatever its machine does, all but this CPU end up as in `F'`. -/
def LeavesOthers (F : Fleet A μ) (i : Nat) (c : Online μ) (space : AddressSpace A)
    (context : Context) (flush : Bool) (F' : Fleet A μ) : Prop :=
  ∀ (_ : Hardware μ) (machine : μ),
    SameBut i F' (F.switch i { c with cpu.machine := machine } space context flush)

theorem set_eq_self {α : Type} {l : List α} {i : Nat} {x : α} (hi : l[i]? = some x) :
    l.set i x = l := by
  obtain ⟨hlt, rfl⟩ := List.getElem?_eq_some_iff.mp hi
  exact List.set_getElem_self hlt

/-! ## Who is sandboxed -/

/-- The CPUs that are sandboxed are those that their calls have stranded. -/
structure Tells (F : Fleet A μ) (ls : List (List MachineCall)) : Prop where
  length_eq : ls.length = F.cpus.length
  mode_iff : ∀ {i : Nat} {c : Online μ} {l : List MachineCall}, F.cpus[i]? = some c →
    ls[i]? = some l → (c.cpu.mode = .sandboxed ↔ Strands l)

namespace Tells

theorem exists_calls (h : Tells F ls) (hi : F.cpus[i]? = some c) : ∃ l, ls[i]? = some l := by
  have hlt := (List.getElem?_eq_some_iff.mp hi).1
  exact ⟨_, List.getElem?_eq_getElem (h.length_eq ▸ hlt)⟩

theorem online (h : Tells F ls) {k : Kernel A} (hc : c.cpu.mode = .supervisor) :
    Tells { F with kernel := k, cpus := c :: F.cpus } ([] :: ls) := by
  refine ⟨congrArg (· + 1) h.length_eq, fun {j d l} hj hl => ?_⟩
  cases j with
  | zero =>
    cases hj
    cases hl
    simp [hc]
  | succ j => exact h.mode_iff hj hl

theorem offline (h : Tells F ls) (k : Kernel A) (i : Nat) :
    Tells { F with kernel := k, cpus := F.cpus.eraseIdx i } (ls.eraseIdx i) := by
  refine ⟨by simp [List.length_eraseIdx, h.length_eq], fun {j d l} hj hl => ?_⟩
  rw [List.getElem?_eraseIdx] at hj hl
  split at hl
  · next hlt => exact h.mode_iff (by simpa [hlt] using hj) hl
  · next hge => exact h.mode_iff (by simpa [hge] using hj) hl

theorem set (h : Tells F ls) (hi : F.cpus[i]? = some c) (hl : ls[i]? = some l) (c' : Online μ)
    {l' : List MachineCall} (hmode : c'.cpu.mode = .sandboxed ↔ Strands l') (x : Tagging) :
    Tells { F.withTagging x with cpus := F.cpus.set i c' } (ls.set i l') := by
  refine ⟨by simp [h.length_eq], fun {j d l₁} hj hl₁ => ?_⟩
  obtain ⟨rfl, rfl⟩ | ⟨hij, hj⟩ := set_cases hi hj
  · obtain ⟨-, rfl⟩ | ⟨hne, -⟩ := set_cases hl hl₁
    · exact hmode
    · exact absurd rfl hne
  · obtain ⟨rfl, -⟩ | ⟨-, hl₁⟩ := set_cases hl hl₁
    · exact absurd rfl hij
    · exact h.mode_iff hj hl₁

end Tells

/-! ## Recounts -/

section Recounts

variable [own : Hardware μ]

/-- Fleets that arise, with the calls that each CPU has made of its machine since it came online. -/
inductive Recounts : Fleet A μ → List (List MachineCall) → Prop
  | start {opts : KernelOptions} {k : Kernel A} {w : Owners} (hk : Kernel.create A opts = .ok k)
      (hw : w.Unbound) : Recounts ⟨k, w, {}, []⟩ []
  /-- A call that leaves the CPUs alone and asks nothing of the hardware. -/
  | aside {F F' : Fleet A μ} {ls : List (List MachineCall)} (h : Recounts F ls) (hmove : Move F F')
      (hcpus : F'.cpus = F.cpus) (hevents : F'.trace.events = F.trace.events) : Recounts F' ls
  | assign {F : Fleet A μ} {ls : List (List MachineCall)} (h : Recounts F ls) {o : OwnerId}
      (ho : F.owners.isLive o = true) :
      Recounts (F.withTagging ((Tagging.assign o).final F.tagging)) ls
  | online {F : Fleet A μ} {ls : List (List MachineCall)} (h : Recounts F ls) {id : Nat}
      {machine : μ} {vectors : Word} {c : Cpu μ}
      (hc : (Cpu.start id machine vectors).outcome F.kernel = .ok c) :
      Recounts { F with
        kernel := (Cpu.start id machine vectors).final F.kernel
        cpus := ⟨c, F.trace.events.size, []⟩ :: F.cpus } ([] :: ls)
  | offline {F : Fleet A μ} {ls : List (List MachineCall)} (h : Recounts F ls) {i : Nat}
      {c : Online μ} (hi : F.cpus[i]? = some c) :
      Recounts { F with
        kernel := (Kernel.unregister c.cpu.id).final F.kernel
        cpus := F.cpus.eraseIdx i } (ls.eraseIdx i)
  | tamper {F : Fleet A μ} {ls : List (List MachineCall)} (h : Recounts F ls) {i : Nat}
      {c : Online μ} (hi : F.cpus[i]? = some c) (machine : μ) :
      Recounts { F with cpus := F.cpus.set i { c with cpu.machine := machine } } ls
  | switch {F : Fleet A μ} {ls : List (List MachineCall)} (h : Recounts F ls) {i : Nat}
      {c : Online μ} {l : List MachineCall} (hi : F.cpus[i]? = some c) (hl : ls[i]? = some l)
      {space : AddressSpace A} (ho : F.owners.isLive space.owner = true) (context : Context)
      (flush : Bool) :
      Recounts (F.switch i c space context flush)
        (ls.set i (l ++ calls ⟨c.cpu, context, F.tagging⟩ space flush))

theorem mode_final_iff (s : Switching μ) (space : AddressSpace A) (flush : Bool)
    (hmode : s.cpu.mode = .sandboxed ↔ Strands l) :
    ((run space flush).final s).cpu.mode = .sandboxed ↔
      Strands (l ++ s.calls space flush) := by
  by_cases hsup : s.cpu.mode = .supervisor
  · have hl : ¬ Strands l := by simp [← hmode, hsup]
    rw [strands_append, (run_visits space flush hsup).mode_iff hsup]
    simp [hl]
  · rw [run_final_of_sandboxed space flush hsup, calls_of_sandboxed space flush hsup,
      List.append_nil, hmode]

theorem Recounts.tells (h : Recounts F ls) : Tells F ls := by
  induction h with
  | start => exact ⟨rfl, fun hi => by simp at hi⟩
  | aside _ _ hcpus _ ih =>
    obtain ⟨hlength, hmode⟩ := ih
    rw [← hcpus] at hlength
    exact ⟨hlength, fun hi => hmode (hcpus ▸ hi)⟩
  | assign _ _ ih => exact ⟨ih.length_eq, ih.mode_iff⟩
  | online _ hc ih =>
    obtain rfl := Cpu.eq_of_start hc
    exact ih.online rfl
  | offline _ _ ih => exact ih.offline _ _
  | @tamper F ls _ i c hi machine ih =>
    obtain ⟨l, hl⟩ := ih.exists_calls hi
    have hmode := ih.mode_iff hi hl
    have hset := ih.set hi hl { c with cpu.machine := machine } hmode F.tagging
    rwa [set_eq_self hl] at hset
  | switch _ hi hl _ context flush ih =>
    exact ih.set hi hl _ (mode_final_iff _ _ flush (ih.mode_iff hi hl)) _

theorem Recounts.arises (h : Recounts F ls) : Arises F := by
  induction h with
  | start hk hw => exact .start hk hw
  | aside _ hmove _ _ ih => exact ih.move hmove
  | assign _ ho ih => exact ih.move (.assign ho)
  | online _ hc ih => exact ih.move (.call (.start hc))
  | offline _ hi ih => exact ih.move (.call (.stop hi))
  | tamper _ hi machine ih => exact ih.move (.call (.tamper hi machine))
  | switch _ hi _ ho context flush ih => exact ih.move (.call (.switch hi ho context flush))

/-- Every fleet that arises can be recounted. -/
theorem Arises.exists_recounts (h : Arises F) : ∃ ls, Recounts F ls := by
  induction h with
  | start hk hw => exact ⟨[], .start hk hw⟩
  | move _ hmove ih =>
    obtain ⟨ls, hls⟩ := ih
    cases hmove with
    | rig => exact ⟨ls, hls.aside (.rig _) rfl rfl⟩
    | assign ho => exact ⟨ls, hls.assign ho⟩
    | call hstep =>
      cases hstep with
      | create => exact ⟨ls, hls.aside (.call .create) rfl rfl⟩
      | drop o => exact ⟨ls, hls.aside (.call (.drop o)) rfl rfl⟩
      | release o =>
        exact ⟨ls, hls.aside (.call (.release o)) rfl
          (congrArg Trace.events (Tagging.trace_release _ o))⟩
      | start hc => exact ⟨_, hls.online hc⟩
      | startFailed he => exact ⟨ls, hls.aside (.call (.startFailed he)) rfl rfl⟩
      | stop hi => exact ⟨_, hls.offline hi⟩
      | tamper hi machine => exact ⟨ls, hls.tamper hi machine⟩
      | switch hi ho context flush =>
        obtain ⟨l, hl⟩ := hls.tells.exists_calls hi
        exact ⟨_, hls.switch hi hl ho context flush⟩

/-! ## Stranded CPUs -/

theorem leavesOthers_switch (space : AddressSpace A) (context : Context) (flush : Bool) :
    LeavesOthers F i c space context flush (F.switch i c space context flush) := by
  intro hardware machine
  obtain ⟨hpool, howners⟩ := @final_tagging_map A μ μ own hardware ⟨c.cpu, context, F.tagging⟩
    (fun _ => machine) space flush
  constructor
  case kernel => exact congrArg (fun p => (⟨F.kernel.opts, p, F.kernel.online⟩ : Kernel A)) hpool
  case owners => exact howners
  case cpus =>
    intro j hj
    simp [Fleet.switch, List.getElem?_set_ne hj.symm]

theorem switch_of_sandboxed (hi : F.cpus[i]? = some c) (hmode : c.cpu.mode ≠ .supervisor)
    (space : AddressSpace A) (context : Context) (flush : Bool) :
    F.switch i c space context flush = F := by
  unfold Fleet.switch
  rw [run_final_of_sandboxed (s := ⟨c.cpu, context, F.tagging⟩) space flush hmode]
  dsimp only
  rw [if_neg hmode, set_eq_self hi]
  rfl

/-- Whatever was called before, a CPU is sandboxed if and only if one of its entries has not come
back since it came online. The switch of that entry has left its context alone, and no switch on
this CPU does anything from then on. The kernel, the slots and the other CPUs are as they would be
if the machine had done anything else, such as to come back. -/
theorem Recounts.strands_cpu (h : Recounts F ls) (hi : F.cpus[i]? = some c) :
    ∃ l, ls[i]? = some l ∧ (c.cpu.mode = .sandboxed ↔ Strands l) ∧
      ∀ (space : AddressSpace A) (context : Context) (flush : Bool),
        (Strands (calls ⟨c.cpu, context, F.tagging⟩ space flush) →
          ((run space flush).final ⟨c.cpu, context, F.tagging⟩).context = context) ∧
        (Strands l →
          (run space flush).outcome ⟨c.cpu, context, F.tagging⟩ =
            .error (.abort (.alreadySandboxed c.cpu.id)) ∧
          (run space flush).final ⟨c.cpu, context, F.tagging⟩ = ⟨c.cpu, context, F.tagging⟩ ∧
          F.switch i c space context flush = F) ∧
        LeavesOthers F i c space context flush (F.switch i c space context flush) := by
  obtain ⟨l, hl⟩ := h.tells.exists_calls hi
  have hmode := h.tells.mode_iff hi hl
  refine ⟨l, hl, hmode, fun space context flush => ⟨fun hcalls => ?_, fun hstrands => ?_,
    leavesOthers_switch space context flush⟩⟩
  · by_cases hsup : c.cpu.mode = .supervisor
    · exact (run_visits space flush hsup).context hcalls
    · rw [calls_of_sandboxed (s := ⟨c.cpu, context, F.tagging⟩) space flush hsup] at hcalls
      exact absurd hcalls not_strands_nil
  · have hsup : c.cpu.mode ≠ .supervisor := by simp [hmode.mpr hstrands]
    have hstuck := run_of_sandboxed (s := ⟨c.cpu, context, F.tagging⟩) space flush hsup #[]
    exact ⟨by rw [Action.outcome, hstuck], run_final_of_sandboxed space flush hsup,
      switch_of_sandboxed hi hsup space context flush⟩

end Recounts

/-- A CPU whose code crashes after it has used the floating-point unit. -/
def fragile : Online ScriptedMachine :=
  ⟨{ id := 0, machine := ⟨[.fp 1 7, .crash], .zero⟩, stackSize := 16384, vectors := 0 }, 0, []⟩

def intact : Fleet .riscv64 ScriptedMachine :=
  ⟨(Cpu.start 0 fragile.cpu.machine 0).final oneTag, ({} : Owners).create, {}, [fragile]⟩

def broken : Fleet .riscv64 ScriptedMachine :=
  intact.switch 0 fragile (spaceOf ⟨1⟩) {} false

def wreck : Online ScriptedMachine :=
  broken.cpus.headD fragile

theorem recounts_broken :
    Recounts broken [calls ⟨fragile.cpu, {}, intact.tagging⟩ (spaceOf ⟨1⟩) false] := by
  have hkernel : Kernel.create .riscv64 oneTag.opts = .ok oneTag := by decide
  have hstart : (Cpu.start 0 fragile.cpu.machine 0).outcome oneTag = .ok fragile.cpu := rfl
  have hspace : Recounts (⟨oneTag, ({} : Owners).create, {}, []⟩ :
      Fleet .riscv64 ScriptedMachine) [] :=
    (Recounts.start hkernel Owners.unbound_empty).aside (.call .create) rfl rfl
  have hlive : intact.owners.isLive (spaceOf ⟨1⟩).owner = true := by decide +kernel
  exact (hspace.online hstart).switch (i := 0) rfl rfl hlive {} false

/-- The entry after the load of the file has not come back, and the CPU does not switch again. -/
theorem strands_cpu_broken : ∃ l, Recounts broken [l] ∧ l.length = 3 ∧ Strands l ∧
    (run (spaceOf ⟨1⟩) true).outcome ⟨wreck.cpu, {}, broken.tagging⟩ =
      .error (.abort (.alreadySandboxed 0)) ∧
    broken.switch 0 wreck (spaceOf ⟨1⟩) {} true = broken := by
  obtain ⟨l, hl, hmode, hswitch⟩ := recounts_broken.strands_cpu (i := 0) (c := wreck) rfl
  obtain rfl := Option.some.inj hl
  have hstrands := hmode.mp (by decide +kernel)
  obtain ⟨-, hstuck, -⟩ := hswitch (spaceOf ⟨1⟩) {} true
  obtain ⟨houtcome, -, hsame⟩ := hstuck hstrands
  exact ⟨_, recounts_broken, by decide +kernel, hstrands, houtcome, hsame⟩

end Fleet

end Sandbox
