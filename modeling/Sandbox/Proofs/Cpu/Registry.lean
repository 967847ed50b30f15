import Mathlib.Algebra.GroupWithZero.Nat
import Mathlib.Data.Finset.Card
import Mathlib.Algebra.BigOperators.Group.List.Basic
import Sandbox.Proofs.Cpu.Sound
import Sandbox.ScriptedMachine

/-! # The registry of a kernel

A kernel that has room for the stacks of its CPUs has exactly the numbers of its CPUs in the
bitmap. A CPU can come online under every other number that is in range, an attempt that fails
changes nothing, and a CPU that goes offline frees its own number. Without room for a stack the
registry is left with a number that no CPU has.
-/

namespace Sandbox

/-! ## Counting members -/

namespace CpuSet

variable {s s' : CpuSet} {id : Nat} {w : Word}

def bitsOf (w : Word) : Finset Nat :=
  {i ∈ Finset.range 64 | w.getLsbD i = true}

theorem bitCount_eq_card (w : Word) : bitCount w = (bitsOf w).card := by
  by_cases h : w = 0
  · simp [bitCount, bitsOf, h]
  · rw [bitCount, if_neg h, List.countP_eq_length_filter, bitsOf, Finset.card_def,
      Finset.filter_val, Finset.range_val, ← Multiset.coe_range, Multiset.filter_coe,
      Multiset.coe_card]
    simp

theorem bitCount_or_bit (h : w.getLsbD (id % 64) = false) :
    bitCount (w ||| bit id) = bitCount w + 1 := by
  have hlt : id % 64 < 64 := Nat.mod_lt _ (by decide)
  have hinsert : bitsOf (w ||| bit id) = Insert.insert (id % 64) (bitsOf w) := by
    ext i
    by_cases hi : i < 64
    · simp [bitsOf, hi, -BitVec.getLsbD_eq_getElem, getLsbD_bit hi, or_comm]
    · have hne : i ≠ id % 64 := by omega
      simp [bitsOf, hi, hne]
  rw [bitCount_eq_card, bitCount_eq_card, hinsert,
    Finset.card_insert_of_notMem (by simp [bitsOf, h])]

theorem bitCount_and_not_bit (h : w.getLsbD (id % 64) = true) :
    bitCount (w &&& ~~~(bit id)) + 1 = bitCount w := by
  have hback : (w &&& ~~~(bit id)) ||| bit id = w := by
    ext i hi
    by_cases heq : i = id % 64
    · subst heq
      simp [← BitVec.getLsbD_eq_getElem, getLsbD_bit hi, h]
    · simp [← BitVec.getLsbD_eq_getElem, getLsbD_bit hi, hi, heq]
  have hlt : id % 64 < 64 := Nat.mod_lt _ (by decide)
  rw [← bitCount_or_bit, hback]
  simp [getLsbD_bit hlt]

theorem size_eq_sum (s : CpuSet) : s.size = (s.words.toList.map bitCount).sum := by
  simp [size, List.sum_eq_foldl, List.foldl_map]

theorem sum_set_add {l : List Nat} {i a : Nat} (h : l[i]? = some a) (b : Nat) :
    (l.set i b).sum + a = l.sum + b := by
  induction l generalizing i with
  | nil => simp at h
  | cons x l ih =>
    cases i with
    | zero =>
      obtain rfl : x = a := by simpa using h
      simp
      omega
    | succ i =>
      have hl := ih (i := i) (by simpa using h)
      simp
      omega

theorem size_set_add {i : Nat} (h : s.words[i]? = some w) (v : Word) :
    (⟨s.words.setIfInBounds i v⟩ : CpuSet).size + bitCount w = s.size + bitCount v := by
  have hmap : (s.words.toList.map bitCount)[i]? = some (bitCount w) := by simp [h]
  simpa [size_eq_sum, List.map_set] using sum_set_add hmap (bitCount v)

theorem size_insert (hs : s.insert id = .ok s') (h : ¬ s.Has id) : s'.size = s.size + 1 := by
  obtain ⟨w, hw, rfl⟩ := insert_eq_ok_iff.mp hs
  have hfree : w.getLsbD (id % 64) = false := by simpa [has_iff_of_word hw] using h
  have hsize := size_set_add hw (w ||| bit id)
  rw [bitCount_or_bit hfree] at hsize
  omega

theorem size_erase (hs : s.erase id = .ok s') (h : s.Has id) : s'.size + 1 = s.size := by
  obtain ⟨w, hw, rfl⟩ := erase_eq_ok_iff.mp hs
  have hsize := size_set_add hw (w &&& ~~~(bit id))
  have hcount := bitCount_and_not_bit ((has_iff_of_word hw).mp h)
  omega

@[simp] theorem size_empty (max : Nat) : (empty max).size = 0 := by
  simp [size_eq_sum, empty, bitCount]

theorem not_has_empty (max id : Nat) : ¬ (empty max).Has id := by
  simp +contextual [Has, empty, Array.getElem?_replicate]

theorem exists_contains (h : id / 64 < s.words.size) :
    ∃ b, s.contains id = .ok b ∧ (b = true ↔ s.Has id) := by
  have hw := Array.getElem?_eq_getElem h
  refine ⟨decide (s.words[id / 64] &&& bit id ≠ 0), ?_, ?_⟩
  · simp [contains, word, orAbort, hw, bind, Except.bind, pure, Except.pure]
  · rw [decide_eq_true_eq, and_bit_ne_zero_iff, has_iff_of_word hw]

theorem exists_insert (h : id / 64 < s.words.size) : ∃ s', s.insert id = .ok s' :=
  ⟨_, insert_eq_ok_iff.mpr ⟨_, Array.getElem?_eq_getElem h, rfl⟩⟩

theorem exists_erase (h : id / 64 < s.words.size) : ∃ s', s.erase id = .ok s' :=
  ⟨_, erase_eq_ok_iff.mpr ⟨_, Array.getElem?_eq_getElem h, rfl⟩⟩

theorem size_words_insert (hs : s.insert id = .ok s') : s'.words.size = s.words.size := by
  obtain ⟨w, -, rfl⟩ := insert_eq_ok_iff.mp hs
  simp

theorem size_words_erase (hs : s.erase id = .ok s') : s'.words.size = s.words.size := by
  obtain ⟨w, -, rfl⟩ := erase_eq_ok_iff.mp hs
  simp

end CpuSet

/-! ## One call -/

namespace Kernel

variable {A : Architecture} {k k' : Kernel A} {ids : List Nat} {id i : Nat}

/-- The bitmap of the kernel has room for all numbers in range, and holds exactly `ids`. -/
structure Holds (k : Kernel A) (ids : List Nat) : Prop where
  room : k.online.words.size = (k.opts.maxCpus + 63) / 64
  distinct : ids.Nodup
  below : ∀ id ∈ ids, id < k.opts.maxCpus
  has_iff : ∀ id, k.online.Has id ↔ id ∈ ids
  cpus : k.cpus = ids.length

theorem holds_of_create {opts : KernelOptions} (h : create A opts = .ok k) : k.Holds [] := by
  obtain ⟨pool, -, rfl⟩ := create_eq_ok h
  constructor
  case room => simp [CpuSet.empty]
  case distinct => exact List.nodup_nil
  case below => simp
  case has_iff => simp [CpuSet.not_has_empty]
  case cpus => simp [cpus]

namespace Holds

theorem congr (h : k.Holds ids) (hopts : k'.opts = k.opts) (honline : k'.online = k.online) :
    k'.Holds ids := by
  constructor
  case room => simpa [hopts, honline] using h.room
  case distinct => exact h.distinct
  case below => simpa [hopts] using h.below
  case has_iff => simpa [honline] using h.has_iff
  case cpus => simpa [Kernel.cpus, honline] using h.cpus

theorem inBounds (h : k.Holds ids) (hid : id < k.opts.maxCpus) :
    id / 64 < k.online.words.size := by
  rw [h.room]
  omega

theorem insert (h : k.Holds ids) {s : CpuSet} (hlt : id < k.opts.maxCpus) (hfree : id ∉ ids)
    (hs : k.online.insert id = .ok s) :
    ({ k with online := s } : Kernel A).Holds (id :: ids) := by
  constructor
  case room => exact (CpuSet.size_words_insert hs).trans h.room
  case distinct => exact List.nodup_cons.mpr ⟨hfree, h.distinct⟩
  case below => simpa using ⟨hlt, h.below⟩
  case has_iff => simp [CpuSet.has_insert_iff hs, h.has_iff]
  case cpus =>
    have hsize := CpuSet.size_insert hs (mt (h.has_iff id).mp hfree)
    simpa [Kernel.cpus, hsize] using h.cpus

theorem erase (h : k.Holds ids) {s : CpuSet} (hi : ids[i]? = some id)
    (hs : k.online.erase id = .ok s) :
    ({ k with online := s } : Kernel A).Holds (ids.eraseIdx i) := by
  have hmem := List.mem_of_getElem? hi
  constructor
  case room => exact (CpuSet.size_words_erase hs).trans h.room
  case distinct => exact h.distinct.sublist (List.eraseIdx_sublist _ _)
  case below => exact fun j hj => h.below j ((List.eraseIdx_sublist _ _).subset hj)
  case has_iff =>
    intro j
    rw [CpuSet.has_erase_iff hs, h.has_iff, List.mem_eraseIdx_iff_getElem?]
    constructor
    · rintro ⟨hne, hj⟩
      obtain ⟨m, hm⟩ := List.getElem?_of_mem hj
      refine ⟨m, ?_, hm⟩
      rintro rfl
      exact hne (Option.some.inj (hm.symm.trans hi))
    · rintro ⟨m, hmi, hm⟩
      refine ⟨?_, List.mem_of_getElem? hm⟩
      rintro rfl
      have hlt := (List.getElem?_eq_some_iff.mp hm).1
      exact hmi ((List.getElem?_inj hlt h.distinct).mp (hm.trans hi.symm))
  case cpus =>
    have hsize := CpuSet.size_erase hs ((h.has_iff id).mpr hmem)
    have hcpus : k.online.size = ids.length := h.cpus
    have hlt := (List.getElem?_eq_some_iff.mp hi).1
    rw [List.length_eraseIdx_of_lt hlt]
    change s.size = _
    omega

end Holds

/-- A number is taken if it is in range and free. Otherwise it is refused, and the kernel stays
as it is. -/
theorem Holds.register_cases (h : k.Holds ids) (id : Nat) (L : Array LogRecord) :
    k.opts.maxCpus ≤ id ∧ Kernel.register id ⟨k, L⟩ =
        .error (.refusal (.cpuOutOfRange id k.opts.maxCpus)) ⟨k, L⟩ ∨
      id < k.opts.maxCpus ∧ id ∈ ids ∧
        Kernel.register id ⟨k, L⟩ = .error (.refusal (.cpuOnline id)) ⟨k, L⟩ ∨
      id < k.opts.maxCpus ∧ id ∉ ids ∧ ∃ s, k.online.insert id = .ok s ∧
        Kernel.register id ⟨k, L⟩ = .ok () ⟨{ k with online := s }, L⟩ := by
  unfold Kernel.register
  rw [Action.bind_run (show Action.read ⟨k, L⟩ = .ok k ⟨k, L⟩ from rfl)]
  by_cases hmax : k.opts.maxCpus ≤ id
  · rw [if_pos hmax]
    exact .inl ⟨hmax, rfl⟩
  · have hlt : id < k.opts.maxCpus := by omega
    obtain ⟨b, hb, hhas⟩ := CpuSet.exists_contains (h.inBounds hlt)
    rw [if_neg hmax, hb]
    cases b with
    | true => exact .inr (.inl ⟨hlt, (h.has_iff id).mp (hhas.mp rfl), rfl⟩)
    | false =>
      obtain ⟨s, hs⟩ := CpuSet.exists_insert (h.inBounds hlt)
      have hfree : id ∉ ids := fun hmem => by simpa using hhas.mpr ((h.has_iff id).mpr hmem)
      rw [hs]
      exact .inr (.inr ⟨hlt, hfree, s, rfl, rfl⟩)

theorem Holds.unregister (h : k.Holds ids) (hmem : id ∈ ids) :
    ∃ s, k.online.erase id = .ok s ∧ (Kernel.unregister id).outcome k = .ok () ∧
      (Kernel.unregister id).final k = { k with online := s } := by
  obtain ⟨s, hs⟩ := CpuSet.exists_erase (h.inBounds (h.below id hmem))
  refine ⟨s, hs, ?_, ?_⟩ <;>
    simp only [Action.outcome, Action.final, Kernel.unregister]
  all_goals
    rw [Action.bind_run (show Action.read ⟨k, #[]⟩ = .ok k ⟨k, #[]⟩ from rfl), hs]
    rfl

end Kernel

namespace Cpu

variable {A : Architecture} {μ : Type} {k : Kernel A} {ids : List Nat}

theorem start_cases (h : k.Holds ids) (hstack : k.opts.stackSize ≤ largestBlock) (id : Nat)
    (machine : μ) (vectors : Word) :
    k.opts.maxCpus ≤ id ∧ (start id machine vectors).final k = k ∧
        (start id machine vectors).outcome k =
          .error (.refusal (.cpuOutOfRange id k.opts.maxCpus)) ∨
      id < k.opts.maxCpus ∧ id ∈ ids ∧ (start id machine vectors).final k = k ∧
        (start id machine vectors).outcome k = .error (.refusal (.cpuOnline id)) ∨
      id < k.opts.maxCpus ∧ id ∉ ids ∧ ∃ s, k.online.insert id = .ok s ∧
        (start id machine vectors).final k = { k with online := s } ∧
        ∃ c, c.id = id ∧ (start id machine vectors).outcome k = .ok c := by
  unfold Action.outcome Action.final start
  obtain ⟨hle, hrun⟩ | ⟨hlt, hmem, hrun⟩ | ⟨hlt, hfree, s, hs, hrun⟩ := h.register_cases id #[]
  · rw [Action.bind_run_error hrun]
    exact .inl ⟨hle, rfl, rfl⟩
  · rw [Action.bind_run_error hrun]
    exact .inr (.inl ⟨hlt, hmem, rfl, rfl⟩)
  · rw [Action.bind_run hrun, Action.bind_run (show Action.read _ = .ok _ _ from rfl)]
    dsimp only
    rw [if_neg (Nat.not_lt.mpr hstack)]
    exact .inr (.inr ⟨hlt, hfree, s, hs, rfl, _, rfl, rfl⟩)

end Cpu

/-! ## Every run -/

namespace Fleet

variable {A : Architecture} {μ : Type} {F F' : Fleet A μ}

def ids (F : Fleet A μ) : List Nat :=
  F.cpus.map fun c => c.cpu.id

theorem Step.opts_eq [Hardware μ] (hstep : Step F F') : F'.kernel.opts = F.kernel.opts := by
  cases hstep with
  | @start id machine vectors =>
    obtain h | ⟨s, -, h⟩ := Cpu.start_final F.kernel id machine vectors <;> simp [h]
  | @startFailed id machine vectors =>
    obtain h | ⟨s, -, h⟩ := Cpu.start_final F.kernel id machine vectors <;> simp [h]
  | @stop i c =>
    obtain h | ⟨s, -, h⟩ := Kernel.unregister_final F.kernel c.cpu.id <;> simp [h]
  | _ => rfl

theorem ids_switch [Hardware μ] {T : List Asid} (hs : Sound T F) {i : Nat} {c : Online μ}
    (hi : F.cpus[i]? = some c) {space : AddressSpace A}
    (ho : F.owners.isLive space.owner = true) (context : Context) (flush : Bool) :
    (F.switch i c space context flush).ids = F.ids := by
  refine map_set_eq hi ?_
  by_cases hmode : c.cpu.mode = .supervisor
  · obtain ⟨a, x, l, l', hswitched⟩ := exists_switched hs.guarded hmode ho context flush
    exact hswitched.id
  · rw [Switching.run_final_of_sandboxed (s := ⟨c.cpu, context, F.tagging⟩) space flush hmode]

/-- Every call keeps the numbers of the CPUs in the bitmap, and no others. -/
theorem Step.holds [Hardware μ] {T : List Asid} (hstep : Step F F') (hs : Sound T F)
    (h : F.kernel.Holds F.ids) (hstack : F.kernel.opts.stackSize ≤ largestBlock) :
    F'.kernel.Holds F'.ids := by
  cases hstep with
  | create => exact h
  | drop o => exact h
  | release o => exact h.congr rfl rfl
  | @start id machine vectors c hc =>
    obtain ⟨-, -, ho⟩ | ⟨-, -, -, ho⟩ | ⟨hlt, hfree, s, hins, hfinal, c', hid, ho⟩ :=
      Cpu.start_cases h hstack id machine vectors
    · simp [ho] at hc
    · simp [ho] at hc
    · obtain rfl : c' = c := by simpa [ho] using hc
      simpa [ids, hfinal, hid] using h.insert hlt hfree hins
  | @startFailed id machine vectors e he =>
    obtain ⟨-, hfinal, -⟩ | ⟨-, -, hfinal, -⟩ | ⟨-, -, s, -, -, c, -, ho⟩ :=
      Cpu.start_cases h hstack id machine vectors
    · simpa [ids, hfinal] using h
    · simpa [ids, hfinal] using h
    · simp [ho] at he
  | @stop i c hi =>
    have hid : F.ids[i]? = some c.cpu.id := by simp [ids, hi]
    obtain ⟨s, hs, -, hfinal⟩ := h.unregister (List.mem_of_getElem? hid)
    simpa [ids, hfinal, List.eraseIdx_map] using h.erase hid hs
  | @tamper i c hi machine =>
    have hids : ids { F with cpus := F.cpus.set i { c with cpu.machine := machine } } = F.ids :=
      map_set_eq hi rfl
    rw [hids]
    exact h
  | @switch i c hi space ho context flush =>
    rw [ids_switch hs hi ho context flush]
    exact h.congr rfl rfl

theorem Reachable.holds [Hardware μ] (h : Reachable F)
    (hstack : F.kernel.opts.stackSize ≤ largestBlock) : F.kernel.Holds F.ids := by
  induction h with
  | start hk => exact Kernel.holds_of_create hk
  | step hF hstep ih =>
    rw [hstep.opts_eq] at hstack
    obtain ⟨T, hs⟩ := hF.sound
    exact hstep.holds hs (ih hstack) hstack

/-- The registry of a fleet. Attempts to come online succeed exactly for the numbers in range
that no CPU has. They are refused otherwise, and a refusal changes nothing. A CPU that goes
offline frees its own number. The count is the number of CPUs. The machine of each attempt is
assumed to return the address of its trap vectors, which stands here as a word. -/
structure Enrols (F : Fleet A μ) : Prop where
  starts_iff (id : Nat) (machine : μ) (vectors : Word) :
    (∃ c, (Cpu.start id machine vectors).outcome F.kernel = .ok c) ↔
      id < F.kernel.opts.maxCpus ∧ id ∉ F.ids
  outOfRange_iff (id : Nat) (machine : μ) (vectors : Word) :
    (Cpu.start id machine vectors).outcome F.kernel =
      .error (.refusal (.cpuOutOfRange id F.kernel.opts.maxCpus)) ↔ F.kernel.opts.maxCpus ≤ id
  online_iff (id : Nat) (machine : μ) (vectors : Word) :
    (Cpu.start id machine vectors).outcome F.kernel = .error (.refusal (.cpuOnline id)) ↔
      id < F.kernel.opts.maxCpus ∧ id ∈ F.ids
  /-- An attempt ends in one of these three ways, so never with an index out of bounds. -/
  fails {id : Nat} {machine : μ} {vectors : Word} {e : Stop}
    (he : (Cpu.start id machine vectors).outcome F.kernel = .error e) :
    (e = .refusal (.cpuOutOfRange id F.kernel.opts.maxCpus) ∨ e = .refusal (.cpuOnline id)) ∧
      (Cpu.start id machine vectors).final F.kernel = F.kernel
  started {id : Nat} {machine : μ} {vectors : Word} {c : Cpu μ}
    (hc : (Cpu.start id machine vectors).outcome F.kernel = .ok c) :
    ∃ s, (Cpu.start id machine vectors).final F.kernel = { F.kernel with online := s } ∧
      ∀ j, s.Has j ↔ j = id ∨ F.kernel.online.Has j
  stopped {id : Nat} (hid : id ∈ F.ids) : (Kernel.unregister id).outcome F.kernel = .ok () ∧
    ∃ s, (Kernel.unregister id).final F.kernel = { F.kernel with online := s } ∧
      ∀ j, s.Has j ↔ j ≠ id ∧ F.kernel.online.Has j
  has_iff (id : Nat) : F.kernel.online.Has id ↔ id ∈ F.ids
  distinct : F.ids.Nodup
  cpus : F.kernel.cpus = F.cpus.length
  inBounds {id : Nat} (hid : id < F.kernel.opts.maxCpus) :
    id / 64 < F.kernel.online.words.size

theorem enrols_of_holds (h : F.kernel.Holds F.ids)
    (hstack : F.kernel.opts.stackSize ≤ largestBlock) : F.Enrols := by
  have hstart := Cpu.start_cases (μ := μ) h hstack
  constructor
  case starts_iff =>
    intro id machine vectors
    obtain ⟨hle, -, ho⟩ | ⟨-, hmem, -, ho⟩ | ⟨hlt, hfree, -, -, -, c, -, ho⟩ :=
      hstart id machine vectors
    · simp [ho, hle]
    · simp [ho, hmem]
    · simp [ho, hlt, hfree]
  case outOfRange_iff =>
    intro id machine vectors
    obtain ⟨hle, -, ho⟩ | ⟨hlt, -, -, ho⟩ | ⟨hlt, -, -, -, -, c, -, ho⟩ :=
      hstart id machine vectors
    · simp [ho, hle]
    · simp [ho, hlt]
    · simp [ho, hlt]
  case online_iff =>
    intro id machine vectors
    obtain ⟨hle, -, ho⟩ | ⟨hlt, hmem, -, ho⟩ | ⟨hlt, hfree, -, -, -, c, -, ho⟩ :=
      hstart id machine vectors
    · simp [ho, hle]
    · simp [ho, hlt, hmem]
    · simp [ho, hfree]
  case fails =>
    intro id machine vectors e he
    obtain ⟨-, hfinal, ho⟩ | ⟨-, -, hfinal, ho⟩ | ⟨-, -, -, -, -, c, -, ho⟩ :=
      hstart id machine vectors
    · exact ⟨.inl (Except.error.inj (he.symm.trans ho)), hfinal⟩
    · exact ⟨.inr (Except.error.inj (he.symm.trans ho)), hfinal⟩
    · simp [ho] at he
  case started =>
    intro id machine vectors c hc
    obtain ⟨-, -, ho⟩ | ⟨-, -, -, ho⟩ | ⟨-, -, s, hs, hfinal, -⟩ := hstart id machine vectors
    · simp [ho] at hc
    · simp [ho] at hc
    · exact ⟨s, hfinal, fun j => CpuSet.has_insert_iff hs⟩
  case stopped =>
    intro id hid
    obtain ⟨s, hs, ho, hfinal⟩ := h.unregister hid
    exact ⟨ho, s, hfinal, fun j => CpuSet.has_erase_iff hs⟩
  case has_iff => exact h.has_iff
  case distinct => exact h.distinct
  case cpus => simpa [ids] using h.cpus
  case inBounds => exact h.inBounds

/-- Whatever calls have led to a fleet, the registry knows its CPUs if the stacks of the kernel
fit into memory. -/
theorem Reachable.enrols [Hardware μ] (h : Reachable F)
    (hstack : F.kernel.opts.stackSize ≤ largestBlock) : F.Enrols :=
  enrols_of_holds (h.holds hstack) hstack

def roomy : Kernel .riscv64 :=
  ⟨{ maxCpus := 130, tags := 1 }, ⟨[{ tag := 2 }], 0⟩, .empty 130⟩

def staffed : Fleet .riscv64 ScriptedMachine :=
  ⟨(Cpu.start 129 ({} : ScriptedMachine) 0).final roomy, {}, {},
    [⟨{ id := 129, machine := {}, stackSize := 16384, vectors := 0 }, 0, []⟩]⟩

theorem reachable_staffed : Reachable staffed := by
  have hkernel : Kernel.create .riscv64 roomy.opts = .ok roomy := by decide
  exact (Reachable.start hkernel Owners.unbound_empty).step (.start rfl)

/-- The number of the CPU that is online is refused, in the last word of the bitmap. -/
theorem enrols_staffed : staffed.Enrols ∧ staffed.ids = [129] ∧
    (Cpu.start 129 ({} : ScriptedMachine) 0).outcome staffed.kernel =
      .error (.refusal (.cpuOnline 129)) := by
  have henrols := reachable_staffed.enrols (by decide)
  exact ⟨henrols, rfl, (henrols.online_iff 129 {} 0).mpr ⟨by decide, by decide⟩⟩

/-- A kernel whose stacks are larger than any block of memory. -/
def stackless : Kernel .riscv64 :=
  ⟨{ stackSize := 2 ^ 63, tags := 1 }, ⟨[{ tag := 2 }], 0⟩, .empty 64⟩

/-- A CPU of `stackless` has failed to come online. -/
def haunted : Fleet .riscv64 ScriptedMachine :=
  ⟨(Cpu.start 0 ({} : ScriptedMachine) 0).final stackless, {}, {}, []⟩

theorem reachable_haunted : Reachable haunted := by
  have hkernel : Kernel.create .riscv64 stackless.opts = .ok stackless := by decide
  exact (Reachable.start hkernel Owners.unbound_empty).step (.startFailed rfl)

/-- The attempt has left its number in the registry: one CPU is counted where there is none, and
the next attempt is refused. -/
theorem counts_no_cpu_haunted : stackless.cpus = 0 ∧
    (Cpu.start 0 ({} : ScriptedMachine) 0).outcome stackless =
      .error (.abort (.stackTooLarge (2 ^ 63))) ∧
    Reachable haunted ∧ haunted.cpus = [] ∧ haunted.kernel.cpus = 1 ∧
    (Cpu.start 0 ({} : ScriptedMachine) 0).outcome haunted.kernel =
      .error (.refusal (.cpuOnline 0)) ∧ ¬ haunted.Enrols := by
  have hbefore : stackless.cpus = 0 := by decide +kernel
  have hafter : haunted.kernel.cpus = 1 := by decide +kernel
  refine ⟨hbefore, rfl, reachable_haunted, rfl, hafter, rfl, fun h => ?_⟩
  have hnone : haunted.kernel.cpus = 0 := h.cpus
  omega

end Fleet

end Sandbox
