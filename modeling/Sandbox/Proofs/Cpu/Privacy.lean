import Mathlib.Data.Set.Basic
import Sandbox.Proofs.Cpu.ScriptedUnit
import Sandbox.Proofs.Cpu.Stay

/-! # Private files

A CPU serves any number of contexts in turn, each with a floating-point file of its own, while its
machine has one file for them all and keeps in it what the last context has left. No context can
tell: its file has seen its own instructions only, and where these lead does not depend on what
the other files hold.
-/

namespace Sandbox

/-- A CPU and the contexts that it serves. -/
structure Station (κ μ : Type) where
  cpu : Cpu μ
  contexts : κ → Context
  tagging : Tagging

/-- What the callers of a CPU deal with between two switches. -/
structure Surroundings (κ ρ : Type) where
  registers : κ → TrapFrame
  tagging : Tagging
  rest : ρ

/-- The floating-point instructions that a context has run in one switch. -/
structure Turn (κ ρ : Type) where
  who : κ
  instrs : List (FpInstr ρ)

namespace Turn

variable {κ ρ : Type} [DecidableEq κ]

def own (k : κ) (turns : List (Turn κ ρ)) : List (FpInstr ρ) :=
  turns.flatMap fun v => if v.who = k then v.instrs else []

theorem own_cons (k : κ) (v : Turn κ ρ) (turns : List (Turn κ ρ)) :
    own k (v :: turns) = (if v.who = k then v.instrs else []) ++ own k turns :=
  List.flatMap_cons

end Turn

namespace Station

variable {A : Architecture} {κ μ ρ : Type} {C : Core ρ}

inductive Call (A : Architecture) (κ ρ : Type)
  | switch (who : κ) (space : AddressSpace A) (flush : Bool)
  /-- Anything that others do in the meantime without looking at the files. -/
  | meanwhile (change : Surroundings κ ρ → Surroundings κ ρ)

def facing (st : Station κ μ) (who : κ) : Switching μ :=
  ⟨st.cpu, st.contexts who, st.tagging⟩

variable [Hardware μ] {U : FpUnit μ C} {k who : κ} {st st' st₁ t t' t₁ : Station κ μ}

def surroundings (st : Station κ μ) (U : FpUnit μ C) : Surroundings κ ρ :=
  ⟨fun k => (st.contexts k).registers, st.tagging, U.rest st.cpu.machine⟩

structure Ready (U : FpUnit μ C) (st : Station κ μ) : Prop where
  valid : U.Valid st.cpu.machine
  clean : st.cpu.fpDirty = false

/-- The same but for the file in the machine and the files of contexts outside `own`. -/
structure Alike (U : FpUnit μ C) (own : Set κ) (st t : Station κ μ) : Prop where
  cpu : t.cpu.map U.rest = st.cpu.map U.rest
  registers : ∀ j, (t.contexts j).registers = (st.contexts j).registers
  tagging : t.tagging = st.tagging
  fp : ∀ k ∈ own, (t.contexts k).fp = (st.contexts k).fp

variable [DecidableEq κ] {own : Set κ}

def after (st : Station κ μ) (who : κ) (s : Switching μ) : Station κ μ :=
  ⟨s.cpu, Function.update st.contexts who s.context, s.tagging⟩

/-- A call that returns. What is in the machine's file after other calls than switches is left
open. -/
inductive Step (U : FpUnit μ C) (st : Station κ μ) : Call A κ ρ → Station κ μ → Prop
  | switch {who : κ} {space : AddressSpace A} {flush : Bool} {exit : Exit}
      (hexit : (Switching.run space flush).outcome (st.facing who) = .ok exit) :
      Step U st (.switch who space flush)
        (st.after who ((Switching.run space flush).final (st.facing who)))
  | meanwhile {change : Surroundings κ ρ → Surroundings κ ρ} {m : μ} {contexts : κ → Context}
      {tagging : Tagging} (hvalid : U.Valid m)
      (hfp : ∀ k, (contexts k).fp = (st.contexts k).fp)
      (hchange : surroundings ⟨{ st.cpu with machine := m }, contexts, tagging⟩ U =
        change (st.surroundings U)) :
      Step U st (.meanwhile change) ⟨{ st.cpu with machine := m }, contexts, tagging⟩

inductive Leads (U : FpUnit μ C) : Station κ μ → List (Call A κ ρ) → Station κ μ → Prop
  | nil {st : Station κ μ} : Leads U st [] st
  | cons {st st₁ st' : Station κ μ} {c : Call A κ ρ} {calls : List (Call A κ ρ)}
      (hstep : Step U st c st₁) (h : Leads U st₁ calls st') : Leads U st (c :: calls) st'

/-- Calls of which each switch was a stay of its context on its own file. The registers that the
context gets back are those of the stay, and no other context is touched. -/
inductive Chronicle (U : FpUnit μ C) :
    Station κ μ → List (Call A κ ρ) → List (Turn κ ρ) → Station κ μ → Prop
  | nil {st : Station κ μ} : Chronicle U st [] [] st
  | meanwhile {st st₁ st' : Station κ μ} {change : Surroundings κ ρ → Surroundings κ ρ}
      {calls : List (Call A κ ρ)} {turns : List (Turn κ ρ)}
      (hstep : Step U st (.meanwhile change : Call A κ ρ) st₁)
      (h : Chronicle U st₁ calls turns st') :
      Chronicle U st (.meanwhile change :: calls) turns st'
  | switch {st st₁ st' : Station κ μ} {who : κ} {space : AddressSpace A} {flush : Bool}
      {root : Word} {is : List (FpInstr ρ)} {z : Scene ρ} {calls : List (Call A κ ρ)}
      {turns : List (Turn κ ρ)}
      (hstep : Step U st (.switch who space flush) st₁)
      (hroot : st₁.cpu.root = some root)
      (hstays : C.Stays root ⟨(st.contexts who).registers, U.rest st.cpu.machine⟩
        (st.contexts who).fp is z (st₁.contexts who).fp)
      (hregisters : (st₁.contexts who).registers = z.frame.kept)
      (hrest : U.rest st₁.cpu.machine = z.rest)
      (hothers : ∀ j ≠ who, st₁.contexts j = st.contexts j)
      (h : Chronicle U st₁ calls turns st') :
      Chronicle U st (.switch who space flush :: calls) (⟨who, is⟩ :: turns) st'

/-! ## One call -/

omit [Hardware μ] in
@[simp] theorem facing_after (st : Station κ μ) (who : κ) (s : Switching μ) :
    (st.after who s).facing who = s := by
  simp [after, facing]

theorem Step.exists_switches {space : AddressSpace A} {flush : Bool}
    (h : Step U st (.switch who space flush) st₁) (hr : st.Ready U) : st₁.Ready U ∧
      (∀ j ≠ who, st₁.contexts j = st.contexts j) ∧ ∃ is, Switching.Switches C space flush
        ((st.facing who).map U.rest) is ((st₁.facing who).map U.rest) := by
  cases h with
  | switch hexit =>
    obtain ⟨hvalid, is, hswitches⟩ := Switching.run_switches U hexit hr.clean hr.valid
    refine ⟨⟨hvalid, hswitches.fpDirty_eq hr.clean⟩, fun j hj => ?_, is, ?_⟩
    · exact Function.update_of_ne hj _ _
    · rwa [facing_after]

theorem Step.ready {change : Surroundings κ ρ → Surroundings κ ρ}
    (h : Step U st (.meanwhile change : Call A κ ρ) st₁) (hr : st.Ready U) : st₁.Ready U := by
  cases h with
  | meanwhile hvalid => exact ⟨hvalid, hr.clean⟩

theorem Step.fp_eq {change : Surroundings κ ρ → Surroundings κ ρ}
    (h : Step U st (.meanwhile change : Call A κ ρ) st₁) (k : κ) :
    (st₁.contexts k).fp = (st.contexts k).fp := by
  cases h with
  | meanwhile _ hfp => exact hfp k

namespace Alike

omit [DecidableEq κ] in
theorem facing (h : Alike U own st t) (who : κ) : (t.facing who).map U.rest =
    { (st.facing who).map U.rest with context.fp := (t.contexts who).fp } := by
  unfold Station.facing Switching.map
  dsimp only
  rw [h.cpu, h.tagging, ← h.registers who]

omit [DecidableEq κ] in
theorem surroundings (h : Alike U own st t) : t.surroundings U = st.surroundings U := by
  have hrest : U.rest t.cpu.machine = U.rest st.cpu.machine := congrArg Cpu.machine h.cpu
  unfold Station.surroundings
  rw [h.tagging, hrest, funext h.registers]

omit [DecidableEq κ] in
theorem context_eq (h : Alike U own st t) (hk : k ∈ own) : t.contexts k = st.contexts k := by
  have hregisters := h.registers k
  have hfp := h.fp k hk
  cases hst : st.contexts k
  cases ht : t.contexts k
  rw [hst, ht] at hfp hregisters
  rw [Context.mk.injEq]
  exact ⟨hregisters, hfp⟩

theorem switch {space : AddressSpace A} {flush : Bool} {is is' : List (FpInstr ρ)}
    (h : Alike U own st t)
    (hs : Switching.Switches C space flush ((st.facing who).map U.rest) is
      ((st₁.facing who).map U.rest))
    (ht : Switching.Switches C space flush ((t.facing who).map U.rest) is'
      ((t₁.facing who).map U.rest))
    (hso : ∀ j ≠ who, st₁.contexts j = st.contexts j)
    (hto : ∀ j ≠ who, t₁.contexts j = t.contexts j)
    (hd : who ∉ own → ∀ i ∈ is, i.Discreet) : Alike U own st₁ t₁ := by
  -- Seen from a core, the two switches begin alike but for the file of the context.
  rw [h.facing who] at ht
  have hf : (t.contexts who).fp = (st.contexts who).fp ∨ ∀ i ∈ is, i.Discreet := by
    by_cases hwho : who ∈ own
    · exact Or.inl (h.fp who hwho)
    · exact Or.inr (hd hwho)
  obtain ⟨rfl, heq⟩ := hs.alike ht hf
  refine ⟨congrArg Switching.cpu heq, fun j => ?_, congrArg Switching.tagging heq, fun k hk => ?_⟩
  · by_cases hj : j = who
    · exact hj ▸ congrArg (fun s : Switching ρ => s.context.registers) heq
    · rw [hso j hj, hto j hj, h.registers j]
  · by_cases hwho : who = k
    · subst hwho
      exact ht.fp_eq.trans ((congrArg (FpInstr.runAll is') (h.fp who hk)).trans hs.fp_eq.symm)
    · rw [hso k (Ne.symm hwho), hto k (Ne.symm hwho), h.fp k hk]

theorem meanwhile {change : Surroundings κ ρ → Surroundings κ ρ} (h : Alike U own st t)
    (hs : Step U st (.meanwhile change : Call A κ ρ) st₁)
    (ht : Step U t (.meanwhile change : Call A κ ρ) t₁) : Alike U own st₁ t₁ := by
  cases hs with
  | @meanwhile _ m contexts tagging _ hfp hchange =>
    cases ht with
    | @meanwhile _ m' contexts' tagging' _ hfp' hchange' =>
      rw [h.surroundings, ← hchange] at hchange'
      have hrest : U.rest m' = U.rest m := congrArg Surroundings.rest hchange'
      refine ⟨?_, fun j => congrFun (congrArg Surroundings.registers hchange') j,
        congrArg Surroundings.tagging hchange', fun k hk => ?_⟩
      · change { t.cpu.map U.rest with machine := U.rest m' } = _
        rw [h.cpu, hrest]
        rfl
      · exact (hfp' k).trans ((h.fp k hk).trans (hfp k).symm)

end Alike

/-! ## Any number of calls -/

/-- In the end each file has seen the instructions of its own context, one after the other. -/
theorem Chronicle.fp_eq {calls : List (Call A κ ρ)} {turns : List (Turn κ ρ)}
    (h : Chronicle U st calls turns st') (k : κ) :
    (st'.contexts k).fp = FpInstr.runAll (Turn.own k turns) (st.contexts k).fp := by
  induction h with
  | nil => rfl
  | meanwhile hstep _ ih => rw [ih, hstep.fp_eq k]
  | @switch _ _ _ who _ _ _ _ _ _ _ _ _ hstays _ _ hothers _ ih =>
    rw [ih, Turn.own_cons, FpInstr.runAll_append]
    by_cases hk : who = k
    · subst hk
      rw [if_pos rfl, hstays.file_eq]
    · rw [if_neg hk, hothers k (Ne.symm hk)]
      rfl

theorem Chronicle.discreet {calls : List (Call A κ ρ)} {turns : List (Turn κ ρ)}
    (h : Chronicle U st calls turns st') (hC : C.Confined) :
    ∀ v ∈ turns, ∀ i ∈ v.instrs, i.Discreet := by
  induction h with
  | nil => exact List.forall_mem_nil _
  | meanwhile _ _ ih => exact ih
  | switch _ _ hstays _ _ _ _ ih => exact List.forall_mem_cons.mpr ⟨hstays.discreet hC, ih⟩

/-- Calls have a chronicle, and so have the same calls from a station that is alike. They end
alike. -/
theorem Leads.exists_chronicle {calls : List (Call A κ ρ)} (h : Leads U st calls st')
    (hr : st.Ready U) : ∃ turns, Chronicle U st calls turns st' ∧
      ∀ own t t', Leads U t calls t' → t.Ready U → Alike U own st t →
        (∀ v ∈ turns, v.who ∉ own → ∀ i ∈ v.instrs, i.Discreet) → Alike U own st' t' := by
  -- The second run makes the same calls, so it is taken apart call by call beside the first.
  induction h with
  | nil =>
    refine ⟨[], .nil, fun own t t' ht _ halike _ => ?_⟩
    cases ht
    exact halike
  | @cons st st₁ st' c calls hstep h ih =>
    cases c with
    | meanwhile change =>
      obtain ⟨turns, hturns, hboth⟩ := ih (hstep.ready hr)
      refine ⟨turns, .meanwhile hstep hturns, fun own t t' ht hrt halike hd => ?_⟩
      cases ht with
      | cons htstep ht =>
        exact hboth own _ t' ht (htstep.ready hrt) (halike.meanwhile hstep htstep) hd
    | switch who space flush =>
      obtain ⟨hr₁, hothers, is, hswitches⟩ := hstep.exists_switches hr
      obtain ⟨turns, hturns, hboth⟩ := ih hr₁
      obtain ⟨root, z, hroot, hstays, hregisters, hrest⟩ := hswitches.stays
      refine ⟨⟨who, is⟩ :: turns,
        .switch hstep hroot hstays hregisters hrest hothers hturns,
        fun own t t' ht hrt halike hd => ?_⟩
      obtain ⟨hfirst, hlater⟩ := List.forall_mem_cons.mp hd
      cases ht with
      | cons htstep ht =>
        obtain ⟨hrt₁, htothers, is', htswitches⟩ := htstep.exists_switches hrt
        have halike₁ := halike.switch hswitches htswitches hothers htothers hfirst
        exact hboth own _ t' ht hrt₁ halike₁ hlater

/-- Whatever contexts a CPU serves in whatever order, each file has in the end seen the
instructions of its own context only, one after the other. The same calls leave contexts the same
files and the same registers whatever is in the machine's file and in the files of others, if the
instructions of others run on their files alone, as all instructions of a confined core do
(`Chronicle.discreet`). One that stores a value of its file to memory would show it to everyone. If
only the machine's file is another one, then any instructions may run. -/
theorem Leads.keeps_files_private {calls : List (Call A κ ρ)} (h : Leads U st calls st')
    (hr : st.Ready U) : ∃ turns, Chronicle U st calls turns st' ∧
      (∀ k, (st'.contexts k).fp = FpInstr.runAll (Turn.own k turns) (st.contexts k).fp) ∧
      (∀ own t t', Leads U t calls t' → t.Ready U → Alike U own st t →
        (∀ v ∈ turns, v.who ∉ own → ∀ i ∈ v.instrs, i.Discreet) → Alike U own st' t') ∧
      ∀ t t', Leads U t calls t' → t.Ready U → Alike U Set.univ st t →
        Alike U Set.univ st' t' := by
  obtain ⟨turns, hturns, hboth⟩ := h.exists_chronicle hr
  refine ⟨turns, hturns, hturns.fp_eq, hboth, fun t t' ht hrt halike => ?_⟩
  exact hboth Set.univ t t' ht hrt halike fun _ _ hout => absurd (Set.mem_univ _) hout

/-! ## Two contexts -/

/-- Two contexts that write a register each. -/
def pair (file first : FpFile) : Station Bool ScriptedMachine where
  cpu :=
    { id := 0, machine := ⟨[.fp 1 7, .ecall, .fp 2 9, .ecall], file⟩, stackSize := 16384
      vectors := 0 }
  contexts who := if who then {} else { fp := first }
  tagging := ⟨⟨[{ tag := 2 }, { tag := 3 }], 0⟩, ({} : Owners).create.create, {}⟩

def spaceFor (who : Bool) : AddressSpace .riscv64 :=
  if who then { owner := ⟨2⟩, root := ⟨8192⟩ } else { owner := ⟨1⟩, root := ⟨4096⟩ }

def served (st : Station Bool ScriptedMachine) (who : Bool) : Station Bool ScriptedMachine :=
  st.after who ((Switching.run (spaceFor who) false).final (st.facing who))

def settled (file first : FpFile) : Station Bool ScriptedMachine :=
  ((pair file first).served false).served true

def leftover : FpFile := FpFile.zero.setFcsr 5

def rounds : List (Call .riscv64 Bool (List MachineStep)) :=
  [.switch false (spaceFor false) false, .switch true (spaceFor true) false]

theorem ready_pair (file first : FpFile) : (pair file first).Ready ScriptedMachine.unit :=
  ⟨by simp [ScriptedMachine.unit, pair, MachineStep.KeepsStatus], rfl⟩

theorem alike_pair (file first file' first' : FpFile) :
    Alike ScriptedMachine.unit {true} (pair file first) (pair file' first') := by
  refine ⟨rfl, fun who => ?_, rfl, ?_⟩
  · cases who <;> rfl
  · rintro who rfl
    rfl

theorem alike_pair_univ (file file' first : FpFile) :
    Alike ScriptedMachine.unit Set.univ (pair file first) (pair file' first) :=
  ⟨rfl, fun _ => rfl, rfl, fun _ _ => rfl⟩

theorem leads_pair {file first : FpFile}
    (hfirst : (Switching.run (spaceFor false) false).outcome ((pair file first).facing false) =
      .ok .syscall)
    (hsecond : (Switching.run (spaceFor true) false).outcome
      (((pair file first).served false).facing true) = .ok .syscall) :
    Leads ScriptedMachine.unit (pair file first) rounds (settled file first) :=
  .cons (.switch hfirst) (.cons (.switch hsecond) .nil)

/-- The second context finds its own zero where the first has left 7 in the machine, and what the
files held at first makes no difference to it. What the machine held makes none to either. -/
theorem keeps_files_private_pair :
    ((pair .zero .zero).served false).cpu.machine.fp.f 1 = .ok 7 ∧
      ((settled .zero .zero).contexts true).fp.f 1 = .ok 0 ∧
      ((settled .zero .zero).contexts true).fp.f 2 = .ok 9 ∧
      (settled leftover leftover).contexts true = (settled .zero .zero).contexts true ∧
      (settled leftover .zero).contexts = (settled .zero .zero).contexts := by
  have hzero : Leads ScriptedMachine.unit (pair .zero .zero) rounds (settled .zero .zero) :=
    leads_pair (by decide +kernel) (by decide +kernel)
  have hleftover : Leads ScriptedMachine.unit (pair leftover leftover) rounds
      (settled leftover leftover) :=
    leads_pair (by decide +kernel) (by decide +kernel)
  have hmachine : Leads ScriptedMachine.unit (pair leftover .zero) rounds
      (settled leftover .zero) :=
    leads_pair (by decide +kernel) (by decide +kernel)
  obtain ⟨turns, hturns, -, hboth, hall⟩ := hzero.keeps_files_private (ready_pair .zero .zero)
  have halike := hboth {true} _ _ hleftover (ready_pair leftover leftover) (alike_pair _ _ _ _)
    fun v hv _ => hturns.discreet ScriptedMachine.core_confined v hv
  have halike' := hall _ _ hmachine (ready_pair leftover .zero) (alike_pair_univ _ _ _)
  refine ⟨by decide +kernel, by decide +kernel, by decide +kernel, halike.context_eq rfl, ?_⟩
  exact funext fun _ => halike'.context_eq (Set.mem_univ _)

end Station

end Sandbox
