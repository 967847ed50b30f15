import Sandbox.Proofs.Cpu.Sound
import Sandbox.ScriptedMachine

/-! # Isolation of spaces

The sandbox is never entered under a tag that another space has used, unless the tag was
flushed on all CPUs in between, and by the entering CPU itself after that. A CPU flushes a tag
no more often than that and than it is told to.
-/

namespace Sandbox

theorem Trace.mem_append_iff {tr tr' : Trace} {l : List Event} {e : Event}
    (h : tr'.events.toList = tr.events.toList ++ l) :
    (∃ k, tr.events.size ≤ k ∧ tr'.events[k]? = some e) ↔ e ∈ l := by
  constructor
  · rintro ⟨k, hle, hk⟩
    rcases Trace.getElem?_of_append h hk with ⟨hlt, -⟩ | ⟨-, hmem⟩
    · exact absurd hle (Nat.not_le_of_lt hlt)
    · exact hmem
  · intro hmem
    obtain ⟨m, hm⟩ := List.getElem?_of_mem hmem
    refine ⟨tr.events.size + m, Nat.le_add_right _ _, ?_⟩
    rw [← Array.getElem?_toList, h, ← Array.length_toList,
      List.getElem?_append_right (Nat.le_add_right _ _), Nat.add_sub_cancel_left, hm]

namespace Fleet

variable {A : Architecture} {μ : Type} {F F' : Fleet A μ} {c : Online μ} {i : Nat}

/-- From `F` to `F'`, the CPU `c` has switched to the space of an owner, and no other space can
tell: no entry finds what was cached under its tag for another owner. -/
structure Isolated (F F' : Fleet A μ) (c : Online μ) (owner : OwnerId) (flush : Bool) :
    Prop where
  entered : ∀ {j cpu : Nat} {o : OwnerId} {t : Asid} {root : Word} {frame : TrapFrame},
    F.trace.events.size ≤ j → F'.trace.events[j]? = some (.enter cpu o t root frame) →
      cpu = c.cpu.id ∧ o = owner ∧ t = F'.owners.tag owner
  /-- Since an entry under the tag for another owner, all CPUs were told to flush it. -/
  flushed_since : ∀ {i j cpu cpu' : Nat} {o o' : OwnerId} {t : Asid} {root root' : Word}
    {frame frame' : TrapFrame}, F.trace.events.size ≤ j →
      F'.trace.events[j]? = some (.enter cpu o t root frame) → i < j →
      F'.trace.events[i]? = some (.enter cpu' o' t root' frame') → o' ≠ o →
        F'.trace.FlushedIn t i j
  /-- Since then, or since it came online, the CPU has flushed the tag itself. -/
  flushed_here : ∀ {j cpu : Nat} {o : OwnerId} {t : Asid} {root : Word} {frame : TrapFrame},
    F.trace.events.size ≤ j → F'.trace.events[j]? = some (.enter cpu o t root frame) →
      ∃ k holders, c.start ≤ k ∧ k < j ∧
        F'.trace.events[k]? = some (.flush (.onCpu (some c.cpu.id)) t holders) ∧
        ¬ F'.trace.FlushedIn t k j
  flush_iff : ∀ {cpu : Option Nat} {t : Asid},
    (∃ k holders, F.trace.events.size ≤ k ∧
      F'.trace.events[k]? = some (.flush (.onCpu cpu) t holders)) ↔
        c.cpu.mode = .supervisor ∧ cpu = some c.cpu.id ∧ t = F'.owners.tag owner ∧
          (flush = true ∨ ¬ c.Loaded F'.trace t)

variable {T : List Asid} {owner : OwnerId} {flush : Bool}

theorem Isolated.of_events_eq (h : F'.trace.events = F.trace.events)
    (hmode : c.cpu.mode ≠ .supervisor) : Isolated F F' c owner flush := by
  have hnone {j : Nat} {e : Event} (hj : F.trace.events.size ≤ j) :
      F'.trace.events[j]? ≠ some e := by
    rw [h, Array.getElem?_eq_none hj]
    exact nofun
  refine ⟨fun hj he => absurd he (hnone hj), fun hj he => absurd he (hnone hj),
    fun hj he => absurd he (hnone hj), ⟨?_, fun hs => absurd hs.1 hmode⟩⟩
  rintro ⟨k, holders, hk, he⟩
  exact absurd he (hnone hk)

namespace Switched

variable {a : Assignment} {x : Tagging} {l l' : List Event} {s : Switching μ}

theorem flushesBefore_eq (h : Switched F c owner flush a x l l' s) {j : Nat} {t : Asid}
    (hj : x.trace.events.size ≤ j) :
    s.tagging.trace.flushesBefore j t = s.tagging.trace.flushes t := by
  refine Nat.le_antisymm Trace.flushesBefore_le ?_
  calc s.tagging.trace.flushes t = x.trace.flushes t := h.flushes_eq t
    _ = s.tagging.trace.flushesBefore x.trace.events.size t := by
      rw [Trace.flushesBefore_of_append h.events (Nat.le_refl _), Trace.flushesBefore_size]
    _ ≤ s.tagging.trace.flushesBefore j t := Trace.flushesBefore_mono hj

theorem mem_flushes_iff (h : Switched F c owner flush a x l l' s) {cpu : Option Nat} {t : Asid} :
    (∃ k holders, F.trace.events.size ≤ k ∧
      s.tagging.trace.events[k]? = some (.flush (.onCpu cpu) t holders)) ↔
        cpu = some c.cpu.id ∧ t = a.tag ∧
          (flush = true ∨ c.cpu.seen a.tag ≠ some a.epoch) := by
  obtain ⟨l₀, hl₀, hassigned⟩ := h.events_eq
  rw [exists_comm]
  simp only [Trace.mem_append_iff hl₀, List.mem_append]
  constructor
  · rintro ⟨holders, hmem | hmem | hmem⟩
    · obtain ⟨_, heq⟩ := hassigned _ hmem
      cases heq
    · obtain ⟨hflush, heq⟩ := (h.flushed _).mp hmem
      cases heq
      exact ⟨rfl, rfl, hflush⟩
    · cases h.run _ hmem
  · rintro ⟨rfl, rfl, hflush⟩
    exact ⟨_, Or.inr (Or.inl ((h.flushed _).mpr ⟨hflush, rfl⟩))⟩

theorem isolated (h : Switched F c owner flush a x l l' s) (hg : F.tagging.Guarded T)
    (ht : Tracks c F.trace) (hmode : c.cpu.mode = .supervisor)
    (htrace : F'.trace = s.tagging.trace) (howners : F'.owners = s.tagging.owners) :
    Isolated F F' c owner flush := by
  have hentered {j cpu : Nat} {o : OwnerId} {t : Asid} {root : Word} {frame : TrapFrame}
      (hj : F.trace.events.size ≤ j)
      (he : s.tagging.trace.events[j]? = some (.enter cpu o t root frame)) :
      x.trace.events.size + l.length ≤ j ∧ cpu = c.cpu.id ∧ o = owner ∧ t = a.tag := by
    obtain ⟨hle, hmem⟩ := h.enter_mem_run hj he
    exact ⟨hle, h.enter_mem (List.mem_append_right l hmem)⟩
  have hslot := h.slot_eq hg
  refine ⟨fun hj he => ?_, fun hj he hlt hi hne => ?_, fun hj he => ?_, ?_⟩
  · rw [howners, hslot]
    exact (hentered hj (htrace ▸ he)).2
  · rw [htrace] at he hi ⊢
    obtain ⟨hle, rfl, rfl, rfl⟩ := hentered hj he
    obtain ⟨i, r, hr, htag, -, howner⟩ := h.assigns.owner_eq hg.counted.sound
    rw [Trace.flushedIn_iff, h.flushesBefore_eq (Nat.le_of_add_right_le hle), ← htag]
    exact (h.guarded hg).flushed_since (h.pool ▸ hr) howner (htag ▸ hi) hne
  · rw [htrace] at he ⊢
    obtain ⟨hle, rfl, rfl, rfl⟩ := hentered hj he
    obtain ⟨k, holders, hstart, hlt, hk, heq⟩ := h.exists_flush hg ht
    refine ⟨k, holders, hstart, Nat.lt_of_lt_of_le hlt hle, hk, ?_⟩
    rw [Trace.flushedIn_iff, heq, Nat.not_lt]
    exact Trace.flushesBefore_le
  · intro cpu t
    rw [htrace, howners, hslot, and_iff_right hmode, h.mem_flushes_iff]
    refine and_congr_right fun _ => and_congr_right fun heq => ?_
    rw [heq, (h.tracks_before ht).loaded_iff, h.epoch_eq hg]

end Switched

theorem Sound.isolated [Hardware μ] (h : Sound T F) (hi : F.cpus[i]? = some c)
    {space : AddressSpace A} (ho : F.owners.isLive space.owner = true) (context : Context)
    (flush : Bool) : Isolated F (F.switch i c space context flush) c space.owner flush := by
  by_cases hmode : c.cpu.mode = .supervisor
  · obtain ⟨a, x, l, l', hs⟩ := exists_switched h.guarded hmode ho context flush
    exact hs.isolated h.guarded (h.tracks c (List.mem_of_getElem? hi)) hmode rfl rfl
  · refine .of_events_eq ?_ hmode
    unfold Fleet.switch
    rw [Switching.run_final_of_sandboxed (s := ⟨c.cpu, context, F.tagging⟩) space flush hmode]
    rfl

/-- Nothing but a switch asks anything of the hardware. -/
theorem Step.exists_switch [Hardware μ] (hstep : Step F F')
    (h : F'.trace.events ≠ F.trace.events) : ∃ i c space context flush,
      F.cpus[i]? = some c ∧ F' = F.switch i c space context flush := by
  cases hstep with
  | switch hi ho context flush => exact ⟨_, _, _, context, flush, hi, rfl⟩
  | release o => exact absurd (congrArg Trace.events (Tagging.trace_release F.tagging o)) h
  | create => exact absurd rfl h
  | drop => exact absurd rfl h
  | start => exact absurd rfl h
  | startFailed => exact absurd rfl h
  | stop => exact absurd rfl h
  | tamper => exact absurd rfl h

/-- Whatever was called before on whatever CPUs, no two CPUs that are online share a number,
each switch keeps the spaces isolated, and nothing else asks anything of the hardware. -/
theorem Reachable.isolates_spaces [Hardware μ] (h : Reachable F) :
    (F.cpus.map fun c => c.cpu.id).Nodup ∧
    (∀ i c (space : AddressSpace A) context flush, F.cpus[i]? = some c →
      F.owners.isLive space.owner = true →
        Isolated F (F.switch i c space context flush) c space.owner flush) ∧
    ∀ F', Step F F' → F'.trace.events ≠ F.trace.events → ∃ i c space context flush,
      F.cpus[i]? = some c ∧ F' = F.switch i c space context flush := by
  obtain ⟨T, hF⟩ := h.sound
  refine ⟨hF.registered.distinct, fun i c space context flush hi ho => ?_, fun F' => Step.exists_switch⟩
  exact hF.isolated hi ho context flush

def spaceOf (o : OwnerId) : AddressSpace .riscv64 :=
  { owner := o, root := ⟨BitVec.ofNat 64 (o.number * 4096)⟩ }

def caller : Online ScriptedMachine :=
  ⟨{ id := 0, machine := ⟨[.ecall, .ecall], .zero⟩, stackSize := 16384, vectors := 0 }, 0, []⟩

def oneTag : Kernel .riscv64 :=
  ⟨{ maxCpus := 1, tags := 1 }, ⟨[{ tag := 2 }], 0⟩, .empty 1⟩

/-- Two spaces on a CPU with one tag. The first space has run. -/
def contended : Fleet .riscv64 ScriptedMachine :=
  (⟨(Cpu.start 0 caller.cpu.machine 0).final oneTag, ({} : Owners).create.create, {}, [caller]⟩ :
    Fleet .riscv64 ScriptedMachine).switch 0 caller (spaceOf ⟨1⟩) {} false

def contender : Online ScriptedMachine :=
  contended.cpus.headD caller

/-- The second space has run as well. -/
def handedOver : Fleet .riscv64 ScriptedMachine :=
  contended.switch 0 contender (spaceOf ⟨2⟩) {} false

theorem reachable_contended : Reachable contended := by
  have hkernel : Kernel.create .riscv64 oneTag.opts = .ok oneTag := by decide
  have hstart : (Cpu.start 0 caller.cpu.machine 0).outcome oneTag = .ok caller.cpu := rfl
  have hspaces : Reachable (⟨oneTag, ({} : Owners).create.create, {}, []⟩ :
      Fleet .riscv64 ScriptedMachine) :=
    ((Reachable.start hkernel Owners.unbound_empty).step .create).step .create
  have hlive : ({} : Owners).create.create.isLive (spaceOf ⟨1⟩).owner = true := by decide +kernel
  exact (hspaces.step (.start hstart)).step (.switch rfl hlive {} false)

/-- Between the entries for the two spaces, all CPUs were told to flush the tag. -/
theorem isolates_spaces_contended : ∃ root root' frame,
    handedOver.trace.events[1]? = some (.enter 0 ⟨1⟩ 2 root frame) ∧
    handedOver.trace.events[4]? = some (.enter 0 ⟨2⟩ 2 root' frame) ∧
    handedOver.trace.FlushedIn 2 1 4 := by
  have hswitch : Isolated contended handedOver contender ⟨2⟩ false :=
    reachable_contended.isolates_spaces.2.1 0 contender (spaceOf ⟨2⟩) {} false rfl (by decide +kernel)
  have hfirst : handedOver.trace.events[1]? = some (.enter 0 ⟨1⟩ 2 0x9000200000000001
      (TrapFrame.zero.set TrapFrame.statusSlot 32)) := by decide +kernel
  have hsecond : handedOver.trace.events[4]? = some (.enter 0 ⟨2⟩ 2 0x9000200000000002
      (TrapFrame.zero.set TrapFrame.statusSlot 32)) := by decide +kernel
  have hsize : contended.trace.events.size ≤ 4 := by decide +kernel
  refine ⟨_, _, _, hfirst, hsecond, ?_⟩
  exact hswitch.flushed_since hsize hsecond (by decide) hfirst (by decide)

end Fleet

end Sandbox
