import Sandbox.Cpu
import Sandbox.Proofs.Tag.Assign

/-! # CPUs that are online

A kernel takes no CPU online whose number is taken, and a number stays taken until its CPU
goes offline.
-/

namespace Sandbox

namespace CpuSet

variable {s s' : CpuSet} {id id' : Nat}

theorem getLsbD_bit {i : Nat} (hi : i < 64) : (bit id).getLsbD i = decide (i = id % 64) := by
  rw [bit, BitVec.natCast_eq_ofNat, BitVec.getLsbD_ofNat, decide_eq_true hi, Bool.true_and,
    Nat.one_shiftLeft, Nat.testBit_two_pow]
  exact decide_eq_decide.mpr eq_comm

theorem and_bit_ne_zero_iff (w : Word) : w &&& bit id ≠ 0 ↔ w.getLsbD (id % 64) = true := by
  have hlt : id % 64 < 64 := Nat.mod_lt _ (by decide)
  constructor
  · intro h
    by_contra hw
    refine h (BitVec.eq_of_getLsbD_eq fun i hi => ?_)
    rw [BitVec.getLsbD_and, getLsbD_bit hi, show (0 : Word).getLsbD i = false from BitVec.getLsbD_zero]
    by_cases heq : i = id % 64
    · rw [heq, Bool.eq_false_of_not_eq_true hw, Bool.false_and]
    · rw [decide_eq_false heq, Bool.and_false]
  · intro hw h
    have hbit := congrArg (fun v : Word => v.getLsbD (id % 64)) h
    simp [hw, getLsbD_bit hlt] at hbit

def Has (s : CpuSet) (id : Nat) : Prop :=
  ∃ w, s.words[id / 64]? = some w ∧ w.getLsbD (id % 64) = true

theorem contains_eq_true_iff : s.contains id = .ok true ↔ s.Has id := by
  unfold contains word orAbort Has
  cases s.words[id / 64]? with
  | none => exact ⟨nofun, nofun⟩
  | some w =>
    change Except.ok (decide (w &&& bit id ≠ 0)) = .ok true ↔ _
    rw [Except.ok.injEq, decide_eq_true_eq, and_bit_ne_zero_iff]
    simp

theorem eq_iff_div_mod (id id' : Nat) : id' = id ↔ id / 64 = id' / 64 ∧ id' % 64 = id % 64 := by
  omega

theorem has_set_iff {v w : Word} (hw : s.words[id / 64]? = some w) :
    (⟨s.words.setIfInBounds (id / 64) v⟩ : CpuSet).Has id' ↔
      if id / 64 = id' / 64 then v.getLsbD (id' % 64) = true else s.Has id' := by
  have hlt : id / 64 < s.words.size := (Array.getElem?_eq_some_iff.mp hw).1
  unfold Has
  rw [Array.getElem?_setIfInBounds]
  by_cases h : id / 64 = id' / 64
  · rw [if_pos h, if_pos h, if_pos hlt]
    simp
  · rw [if_neg h, if_neg h]

theorem has_iff_of_word {w : Word} (hw : s.words[id / 64]? = some w) :
    s.Has id ↔ w.getLsbD (id % 64) = true := by
  simp [Has, hw]

theorem insert_eq_ok_iff : s.insert id = .ok s' ↔ ∃ w, s.words[id / 64]? = some w ∧
    ⟨s.words.setIfInBounds (id / 64) (w ||| bit id)⟩ = s' := by
  unfold insert word orAbort
  cases hw : s.words[id / 64]? <;> simp [bind, Except.bind, pure, Except.pure]

theorem erase_eq_ok_iff : s.erase id = .ok s' ↔ ∃ w, s.words[id / 64]? = some w ∧
    ⟨s.words.setIfInBounds (id / 64) (w &&& ~~~(bit id))⟩ = s' := by
  unfold erase word orAbort
  cases hw : s.words[id / 64]? <;> simp [bind, Except.bind, pure, Except.pure]

theorem has_insert_iff (hs : s.insert id = .ok s') : s'.Has id' ↔ id' = id ∨ s.Has id' := by
  obtain ⟨w, hw, rfl⟩ := insert_eq_ok_iff.mp hs
  rw [has_set_iff hw, eq_iff_div_mod id id']
  by_cases h : id / 64 = id' / 64
  · rw [if_pos h, has_iff_of_word (h ▸ hw), and_iff_right h, BitVec.getLsbD_or,
      getLsbD_bit (Nat.mod_lt _ (by decide)), Bool.or_eq_true, decide_eq_true_eq, or_comm]
  · rw [if_neg h]
    exact ⟨Or.inr, fun h' => h'.resolve_left fun heq => h heq.1⟩

theorem has_erase_iff (hs : s.erase id = .ok s') : s'.Has id' ↔ id' ≠ id ∧ s.Has id' := by
  obtain ⟨w, hw, rfl⟩ := erase_eq_ok_iff.mp hs
  have hlt : id' % 64 < 64 := Nat.mod_lt _ (by decide)
  rw [has_set_iff hw, Ne, eq_iff_div_mod id id']
  by_cases h : id / 64 = id' / 64
  · rw [if_pos h, has_iff_of_word (h ▸ hw), and_iff_right h, BitVec.getLsbD_and, BitVec.getLsbD_not,
      getLsbD_bit hlt, decide_eq_true hlt, Bool.true_and, Bool.and_eq_true, Bool.not_eq_true',
      decide_eq_false_iff_not, and_comm]
  · rw [if_neg h]
    exact ⟨fun h' => ⟨fun heq => h heq.1, h'⟩, And.right⟩

end CpuSet

namespace Kernel

variable {A : Architecture} {k : Kernel A} {id : Nat} {L : Array LogRecord}

theorem create_eq_ok {opts : KernelOptions} (h : create A opts = .ok k) :
    ∃ pool, TagPool.create opts.firstTag opts.tags A.tagLimit = .ok pool ∧
      k = { opts := opts, pool := pool, online := CpuSet.empty opts.maxCpus } := by
  unfold create at h
  split at h
  · cases h
  · cases hp : TagPool.create opts.firstTag opts.tags A.tagLimit with
    | error e =>
      rw [hp] at h
      cases h
    | ok p =>
      rw [hp] at h
      exact ⟨p, rfl, (Except.ok.inj h).symm⟩

theorem register_run (k : Kernel A) (id : Nat) (L : Array LogRecord) :
    (∃ e, register id ⟨k, L⟩ = .error e ⟨k, L⟩) ∨
      ¬ k.online.Has id ∧ ∃ s, k.online.insert id = .ok s ∧
        register id ⟨k, L⟩ = .ok () ⟨{ k with online := s }, L⟩ := by
  unfold register
  rw [Action.bind_run (show Action.read ⟨k, L⟩ = .ok k ⟨k, L⟩ from rfl)]
  by_cases hmax : k.opts.maxCpus ≤ id
  · rw [if_pos hmax]
    exact Or.inl ⟨_, rfl⟩
  · rw [if_neg hmax]
    cases hc : k.online.contains id with
    | error e => exact Or.inl ⟨_, rfl⟩
    | ok b =>
      cases b with
      | true => exact Or.inl ⟨_, rfl⟩
      | false =>
        have hfree : ¬ k.online.Has id := by
          rw [← CpuSet.contains_eq_true_iff, hc]
          exact nofun
        cases hi : k.online.insert id with
        | error e => exact Or.inl ⟨_, rfl⟩
        | ok s => exact Or.inr ⟨hfree, s, rfl, rfl⟩

theorem unregister_final (k : Kernel A) (id : Nat) :
    (unregister id).final k = k ∨
      ∃ s, k.online.erase id = .ok s ∧ (unregister id).final k = { k with online := s } := by
  unfold Action.final unregister
  rw [Action.bind_run (show Action.read ⟨k, #[]⟩ = .ok k ⟨k, #[]⟩ from rfl)]
  cases he : k.online.erase id with
  | error e => exact Or.inl rfl
  | ok s => exact Or.inr ⟨s, rfl, rfl⟩

theorem pool_unregister (k : Kernel A) (id : Nat) : ((unregister id).final k).pool = k.pool := by
  rcases k.unregister_final id with heq | ⟨s, -, heq⟩
  · rw [heq]
  · rw [heq]

end Kernel

namespace Cpu

variable {A : Architecture} {μ : Type} {k : Kernel A} {id : Nat} {machine : μ} {vectors : Word}

/-- A start takes nothing but its own number, which was free. Without room for a stack the
number is taken all the same. -/
theorem start_run (k : Kernel A) (id : Nat) (machine : μ) (vectors : Word) :
    (∃ e, start id machine vectors ⟨k, #[]⟩ = .error e ⟨k, #[]⟩) ∨
      ¬ k.online.Has id ∧ ∃ s, k.online.insert id = .ok s ∧
        ((∃ e, start id machine vectors ⟨k, #[]⟩ = .error e ⟨{ k with online := s }, #[]⟩) ∨
          ∃ L, start id machine vectors ⟨k, #[]⟩ =
            .ok { id := id, machine := machine, stackSize := k.opts.stackSize, vectors := vectors }
              ⟨{ k with online := s }, L⟩) := by
  unfold start
  rcases k.register_run id #[] with ⟨e, hreg⟩ | ⟨hfree, s, hs, hreg⟩
  · rw [Action.bind_run_error hreg]
    exact Or.inl ⟨e, rfl⟩
  · rw [Action.bind_run hreg, Action.bind_run (show Action.read _ = .ok _ _ from rfl)]
    refine Or.inr ⟨hfree, s, hs, ?_⟩
    dsimp only
    by_cases hstack : largestBlock < k.opts.stackSize
    · rw [if_pos hstack]
      exact Or.inl ⟨_, rfl⟩
    · rw [if_neg hstack]
      exact Or.inr ⟨_, rfl⟩

theorem start_final (k : Kernel A) (id : Nat) (machine : μ) (vectors : Word) :
    (start id machine vectors).final k = k ∨ ∃ s, k.online.insert id = .ok s ∧
      (start id machine vectors).final k = { k with online := s } := by
  unfold Action.final
  rcases start_run k id machine vectors with ⟨e, h⟩ | ⟨-, s, hs, ⟨e, h⟩ | ⟨L, h⟩⟩
  · rw [h]
    exact Or.inl rfl
  · rw [h]
    exact Or.inr ⟨s, hs, rfl⟩
  · rw [h]
    exact Or.inr ⟨s, hs, rfl⟩

theorem pool_start (k : Kernel A) (id : Nat) (machine : μ) (vectors : Word) :
    ((start id machine vectors).final k).pool = k.pool := by
  rcases start_final k id machine vectors with heq | ⟨s, -, heq⟩
  · rw [heq]
  · rw [heq]

theorem eq_of_start {c : Cpu μ} (h : (start id machine vectors).outcome k = .ok c) :
    c = { id := id, machine := machine, stackSize := k.opts.stackSize, vectors := vectors } := by
  obtain ⟨t, ht⟩ := Action.outcome_eq_ok.mp h
  rcases start_run k id machine vectors with ⟨e, hrun⟩ | ⟨-, s, -, ⟨e, hrun⟩ | ⟨L, hrun⟩⟩
  · cases hrun.symm.trans ht
  · cases hrun.symm.trans ht
  · cases hrun.symm.trans ht
    rfl

theorem start_eq_ok {c : Cpu μ} (h : (start id machine vectors).outcome k = .ok c) :
    c.id = id ∧ (∀ t, c.seen t = none) ∧ ¬ k.online.Has id ∧ ∃ s, k.online.insert id = .ok s ∧
      (start id machine vectors).final k = { k with online := s } := by
  obtain ⟨t, ht⟩ := Action.outcome_eq_ok.mp h
  unfold Action.final
  rcases start_run k id machine vectors with ⟨e, hrun⟩ | ⟨hfree, s, hs, ⟨e, hrun⟩ | ⟨L, hrun⟩⟩
  · cases hrun.symm.trans ht
  · cases hrun.symm.trans ht
  · rw [hrun] at ht ⊢
    cases ht
    exact ⟨rfl, fun _ => Std.ExtTreeMap.getElem?_empty, hfree, s, hs, rfl⟩

end Cpu

end Sandbox
