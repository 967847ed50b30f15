import Sandbox.Proofs.Cpu.Online
import Sandbox.Proofs.Cpu.Switch
import Sandbox.Proofs.Tag.Entries
import Sandbox.Proofs.Tag.History

/-! # Fleets

A fleet is a kernel with the owners it serves, the CPUs that are online, and all that was
asked of the hardware so far. Owners and CPUs come and go, tags are released, and the CPUs
switch to any spaces in any order.
-/

namespace Sandbox

structure Online (μ : Type) where
  cpu : Cpu μ
  /-- Number of events before the CPU came online. -/
  start : Nat
  /-- The tag of each switch, with the number of events up to the end of the switch. -/
  loads : List (Asid × Nat) := []

structure Fleet (A : Architecture) (μ : Type) where
  kernel : Kernel A
  owners : Owners
  trace : Trace
  cpus : List (Online μ)

/-- The CPU has loaded a tag since the tag was last flushed on all CPUs. -/
def Online.Loaded {μ : Type} (c : Online μ) (tr : Trace) (t : Asid) : Prop :=
  ∃ n, (t, n) ∈ c.loads ∧ ¬ tr.FlushedIn t n tr.events.size

namespace Fleet

variable {A : Architecture} {μ : Type} {F F' : Fleet A μ} {c : Online μ} {i : Nat}

def tagging (F : Fleet A μ) : Tagging := ⟨F.kernel.pool, F.owners, F.trace⟩

def withTagging (F : Fleet A μ) (x : Tagging) : Fleet A μ :=
  { F with kernel.pool := x.pool, owners := x.owners, trace := x.trace }

/-- A switch of the CPU at position `i`. Unless the CPU is still sandboxed, it loads the tag
that the space has got. -/
def switch [Hardware μ] (F : Fleet A μ) (i : Nat) (c : Online μ) (space : AddressSpace A)
    (context : Context) (flush : Bool) : Fleet A μ :=
  let s := (Switching.run space flush).final ⟨c.cpu, context, F.tagging⟩
  let load := (s.tagging.owners.tag space.owner, s.tagging.trace.events.size)
  { F.withTagging s.tagging with
    cpus := F.cpus.set i
      { c with
        cpu := s.cpu
        loads := if c.cpu.mode = .supervisor then load :: c.loads else c.loads } }

/-- One call, however it ends. What a machine does between calls is not up to the CPU. -/
inductive Step [Hardware μ] (F : Fleet A μ) : Fleet A μ → Prop
  | create : Step F { F with owners := F.owners.create }
  | drop (o : OwnerId) : Step F { F with owners := F.owners.drop o }
  | release (o : OwnerId) : Step F (F.withTagging ((Tagging.release o).final F.tagging))
  | start {id : Nat} {machine : μ} {vectors : Word} {c : Cpu μ}
      (hc : (Cpu.start id machine vectors).outcome F.kernel = .ok c) :
      Step F { F with
        kernel := (Cpu.start id machine vectors).final F.kernel
        cpus := ⟨c, F.trace.events.size, []⟩ :: F.cpus }
  | startFailed {id : Nat} {machine : μ} {vectors : Word} {e : Stop}
      (he : (Cpu.start id machine vectors).outcome F.kernel = .error e) :
      Step F { F with kernel := (Cpu.start id machine vectors).final F.kernel }
  | stop {i : Nat} {c : Online μ} (hi : F.cpus[i]? = some c) :
      Step F { F with
        kernel := (Kernel.unregister c.cpu.id).final F.kernel
        cpus := F.cpus.eraseIdx i }
  | tamper {i : Nat} {c : Online μ} (hi : F.cpus[i]? = some c) (machine : μ) :
      Step F { F with cpus := F.cpus.set i { c with cpu.machine := machine } }
  | switch {i : Nat} {c : Online μ} (hi : F.cpus[i]? = some c) {space : AddressSpace A}
      (ho : F.owners.isLive space.owner = true) (context : Context) (flush : Bool) :
      Step F (F.switch i c space context flush)

/-- Fleets that calls lead to from a new kernel, on machines whose flushes return. -/
inductive Reachable [Hardware μ] : Fleet A μ → Prop
  | start {opts : KernelOptions} {k : Kernel A} {w : Owners} (hk : Kernel.create A opts = .ok k)
      (hw : w.Unbound) : Reachable ⟨k, w, {}, []⟩
  | step {F F' : Fleet A μ} (h : Reachable F) (hstep : Step F F') : Reachable F'

/-! ## What a CPU knows of the trace -/

/-- The epochs that a CPU has seen are those of the tags it has loaded. It has flushed each of
these tags itself in that epoch. -/
structure Tracks (c : Online μ) (tr : Trace) : Prop where
  start_le : c.start ≤ tr.events.size
  loaded : ∀ {t : Asid} {e : Nat}, c.cpu.seen t = some e →
    ∃ n, (t, n) ∈ c.loads ∧ tr.flushesBefore n t = e
  flushed : ∀ {t : Asid} {e : Nat}, c.cpu.seen t = some e →
    ∃ k holders, c.start ≤ k ∧ tr.events[k]? = some (.flush (.onCpu (some c.cpu.id)) t holders) ∧
      tr.flushesBefore k t = e
  seen : ∀ {t : Asid} {n : Nat}, (t, n) ∈ c.loads →
    n ≤ tr.events.size ∧ ∃ e, c.cpu.seen t = some e ∧ tr.flushesBefore n t ≤ e

namespace Tracks

variable {tr tr' : Trace} {l : List Event} {t : Asid}

theorem append (h : Tracks c tr) (hl : tr'.events.toList = tr.events.toList ++ l) :
    Tracks c tr' := by
  have hsize := Trace.size_le_of_append hl
  refine ⟨Nat.le_trans h.start_le hsize, fun he => ?_, fun he => ?_, fun hn => ?_⟩
  · obtain ⟨n, hn, heq⟩ := h.loaded he
    exact ⟨n, hn, (Trace.flushesBefore_of_append hl (h.seen hn).1).trans heq⟩
  · obtain ⟨k, holders, hstart, hk, heq⟩ := h.flushed he
    obtain ⟨hlt, hk'⟩ := Trace.getElem?_append hl hk
    exact ⟨k, holders, hstart, hk',
      (Trace.flushesBefore_of_append hl (Nat.le_of_lt hlt)).trans heq⟩
  · obtain ⟨hle, e, he, hless⟩ := h.seen hn
    rw [Trace.flushesBefore_of_append hl hle]
    exact ⟨Nat.le_trans hle hsize, e, he, hless⟩

theorem epoch_le (h : Tracks c tr) {e : Nat} (he : c.cpu.seen t = some e) :
    e ≤ tr.flushes t := by
  obtain ⟨n, -, heq⟩ := h.loaded he
  exact heq ▸ Trace.flushesBefore_le

theorem loaded_iff (h : Tracks c tr) : c.Loaded tr t ↔ c.cpu.seen t = some (tr.flushes t) := by
  unfold Online.Loaded
  simp only [Trace.flushedIn_iff, Trace.flushesBefore_size, Nat.not_lt]
  constructor
  · rintro ⟨n, hn, hle⟩
    obtain ⟨-, e, he, hless⟩ := h.seen hn
    rw [he, Nat.le_antisymm (h.epoch_le he) (Nat.le_trans hle hless)]
  · intro he
    obtain ⟨n, hn, heq⟩ := h.loaded he
    exact ⟨n, hn, Nat.le_of_eq heq.symm⟩

theorem load (h : Tracks c tr) {cpu : Cpu μ} (hid : cpu.id = c.cpu.id)
    (hseen : ∀ g, cpu.seen g = if t = g then some (tr.flushes t) else c.cpu.seen g)
    (hflushed : ∃ k holders, c.start ≤ k ∧
      tr.events[k]? = some (.flush (.onCpu (some c.cpu.id)) t holders) ∧
      tr.flushesBefore k t = tr.flushes t) :
    Tracks { c with cpu := cpu, loads := (t, tr.events.size) :: c.loads } tr := by
  refine ⟨h.start_le, fun {t' e} he => ?_, fun {t' e} he => ?_, fun {t' n} hn => ?_⟩
  · dsimp only at he ⊢
    rw [hseen] at he
    split at he
    · next heq =>
      subst heq
      exact ⟨tr.events.size, List.mem_cons_self,
        Trace.flushesBefore_size.trans (Option.some.inj he)⟩
    · obtain ⟨n, hn, hcount⟩ := h.loaded he
      exact ⟨n, List.mem_cons_of_mem _ hn, hcount⟩
  · dsimp only at he ⊢
    rw [hid]
    rw [hseen] at he
    split at he
    · next heq =>
      subst heq
      exact Option.some.inj he ▸ hflushed
    · exact h.flushed he
  · dsimp only at hn ⊢
    rw [hseen]
    rcases List.mem_cons.mp hn with heq | hn'
    · obtain ⟨rfl, rfl⟩ := Prod.mk.inj heq
      exact ⟨Nat.le_refl _, tr.flushes t', if_pos rfl, Trace.flushesBefore_le⟩
    · obtain ⟨hle, e, he, hless⟩ := h.seen hn'
      refine ⟨hle, ?_⟩
      split
      · next heq => exact ⟨tr.flushes t, rfl, heq ▸ Trace.flushesBefore_le⟩
      · exact ⟨e, he, hless⟩

end Tracks

end Fleet

end Sandbox
