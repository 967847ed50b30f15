import Sandbox.Proofs.Cpu.Isolation

/-! # Flushes that fail

A CPU notes the epoch of a tag before it flushes the tag, not after it. If that flush fails, the
CPU takes the tag for flushed all the same, and it enters the sandbox under the tag later on
without a flush, unless it is told to flush or the tag was flushed on all CPUs in between.
-/

namespace Sandbox

namespace Fleet

variable {A : Architecture} {μ : Type} {F F' F'' : Fleet A μ} {c : Online μ} {i n : Nat}
  {g : Asid} {e : Nat} {T : List Asid}

/-- A call, a tag that is assigned without a switch, or other flushes that fail from now on. -/
inductive Move [Hardware μ] (F : Fleet A μ) : Fleet A μ → Prop
  | call {F' : Fleet A μ} (h : Step F F') : Move F F'
  | assign {o : OwnerId} (ho : F.owners.isLive o = true) :
      Move F (F.withTagging ((Tagging.assign o).final F.tagging))
  | rig (failing : FlushScope → List Asid) : Move F { F with trace.failing := failing }

/-- Fleets that calls lead to from a new kernel, on machines whose flushes may fail. -/
inductive Arises [Hardware μ] : Fleet A μ → Prop
  | start {opts : KernelOptions} {k : Kernel A} {w : Owners} (hk : Kernel.create A opts = .ok k)
      (hw : w.Unbound) : Arises ⟨k, w, {}, []⟩
  | move {F F' : Fleet A μ} (h : Arises F) (hmove : Move F F') : Arises F'

def HasCpu (F : Fleet A μ) (n : Nat) : Prop :=
  ∃ c ∈ F.cpus, c.cpu.id = n

inductive Leads [Hardware μ] (n : Nat) (F : Fleet A μ) : Fleet A μ → Prop
  | refl : Leads n F F
  | move {F' F'' : Fleet A μ} (h : Leads n F F') (hmove : Move F' F'') (hon : F''.HasCpu n) :
      Leads n F F''

def FlushesHere (F F' : Fleet A μ) (n : Nat) (g : Asid) : Prop :=
  ∃ k holders, F.trace.events.size ≤ k ∧
    F'.trace.events[k]? = some (.flush (.onCpu (some n)) g holders)

/-- Between the two fleets, and before the event `m`, a flush of the tag on the CPU `n` has
returned. -/
def FlushedFirst (F F' : Fleet A μ) (n : Nat) (g : Asid) (m : Nat) : Prop :=
  g ∉ F.trace.failing (.onCpu (some n)) ∧ ∃ k holders, F.trace.events.size ≤ k ∧ k < m ∧
    F'.trace.events[k]? = some (.flush (.onCpu (some n)) g holders)

/-- A switch gets the tag `g`, but the flush on its own CPU fails. -/
structure FlushFails [Hardware μ] (F : Fleet A μ) (c : Online μ) (owner : OwnerId)
    (context : Context) (flush : Bool) (g : Asid) : Prop where
  mode : c.cpu.mode = .supervisor
  assigned : ∃ a, (Tagging.assign owner).outcome F.tagging = .ok a ∧ a.tag = g
  failed : (Switching.prepareTag owner flush).outcome ⟨c.cpu, context, F.tagging⟩ =
    .error (.abort (.flushFailed g))

/-! ## What holds whether flushes return or not -/

structure Regular (T : List Asid) (F : Fleet A μ) : Prop where
  sound : F.tagging.Sound T
  registered : Registered F

def Noted (n : Nat) (g : Asid) (e : Nat) (F : Fleet A μ) : Prop :=
  ∀ d ∈ F.cpus, d.cpu.id = n → d.cpu.seen g = some e

variable [Hardware μ]

theorem Regular.switched_or_idle (h : Regular T F) {space : AddressSpace A}
    (ho : F.owners.isLive space.owner = true) (context : Context) (flush : Bool) :
    (∃ a x l l', Switched F c space.owner flush a x l l'
      ((Switching.run space flush).final ⟨c.cpu, context, F.tagging⟩)) ∨
    ∃ x l, (Switching.run space flush).final ⟨c.cpu, context, F.tagging⟩ = ⟨c.cpu, context, x⟩ ∧
      x.Sound T ∧ x.trace.events.toList = F.trace.events.toList ++ l ∧
      ∀ e ∈ l, ∃ t holders, e = .flush .everywhere t holders := by
  by_cases hmode : c.cpu.mode = .supervisor
  · refine (switched_or_stuck h.sound hmode ho context flush).imp_right ?_
    rintro ⟨e, x, hx, hfinal⟩
    obtain ⟨t, holders, hl⟩ := hx.events_stuck
    exact ⟨x, _, hfinal, hx.sound h.sound, hl, by simp⟩
  · have hfinal := Switching.run_final_of_sandboxed (s := ⟨c.cpu, context, F.tagging⟩) space flush
      hmode
    exact Or.inr ⟨F.tagging, [], hfinal, h.sound, (List.append_nil _).symm, nofun⟩

theorem Regular.switch (h : Regular T F) (hi : F.cpus[i]? = some c) {space : AddressSpace A}
    (ho : F.owners.isLive space.owner = true) (context : Context) (flush : Bool) :
    Regular T (F.switch i c space context flush) := by
  have hfinal : ((Switching.run space flush).final ⟨c.cpu, context, F.tagging⟩).cpu.id = c.cpu.id ∧
      ((Switching.run space flush).final ⟨c.cpu, context, F.tagging⟩).tagging.Sound T := by
    rcases h.switched_or_idle ho context flush with ⟨a, x, l, l', hs⟩ | ⟨x, l, hs, hx, -⟩
    · exact ⟨hs.id, (hs.assigns.sound h.sound).congr hs.pool hs.owners⟩
    · rw [hs]
      exact ⟨rfl, hx⟩
  exact ⟨hfinal.2, h.registered.set hi _ hfinal.1 _⟩

theorem Step.regular (hstep : Step F F') (h : Regular T F) : Regular T F' := by
  cases hstep with
  | create => exact ⟨h.sound.create, h.registered.distinct, h.registered.online⟩
  | drop o => exact ⟨h.sound.drop o, h.registered.distinct, h.registered.online⟩
  | release o => exact ⟨h.sound.release o, h.registered.distinct, h.registered.online⟩
  | start hc => exact ⟨h.sound.congr (Cpu.pool_start _ _ _ _) rfl, h.registered.start hc⟩
  | startFailed =>
    exact ⟨h.sound.congr (Cpu.pool_start _ _ _ _) rfl, h.registered.startFailed _ _ _⟩
  | stop hi => exact ⟨h.sound.congr (Kernel.pool_unregister _ _) rfl, h.registered.stop hi⟩
  | @tamper _ c hi machine =>
    exact ⟨h.sound, h.registered.set hi { c with cpu.machine := machine } rfl F.tagging⟩
  | switch hi ho context flush => exact h.switch hi ho context flush

theorem Move.regular (hmove : Move F F') (h : Regular T F) : Regular T F' := by
  cases hmove with
  | call hstep => exact hstep.regular h
  | assign ho =>
    exact ⟨(h.sound.assigns ho).sound h.sound, h.registered.distinct, h.registered.online⟩
  | rig => exact ⟨h.sound.congr rfl rfl, h.registered.distinct, h.registered.online⟩

theorem Reachable.arises (h : Reachable F) : Arises F := by
  induction h with
  | start hk hw => exact .start hk hw
  | step _ hstep ih => exact ih.move (.call hstep)

theorem Arises.regular_le (h : Arises F) : ∃ T, Regular T F ∧ ∀ t ∈ T, t ≤ A.tagLimit := by
  induction h with
  | start hk hw =>
    obtain ⟨pool, hpool, rfl⟩ := Kernel.create_eq_ok hk
    obtain ⟨-, -, hle, -⟩ := TagPool.create_eq_ok hpool
    exact ⟨_, ⟨.of_create hpool hw, List.nodup_nil, by simp⟩, TagPool.le_limit hle⟩
  | move _ hmove ih =>
    obtain ⟨T, hF, hT⟩ := ih
    exact ⟨T, hmove.regular hF, hT⟩

theorem Arises.regular (h : Arises F) : ∃ T, Regular T F :=
  h.regular_le.imp fun _ hT => hT.1

/-! ## What a CPU has noted -/

theorem Regular.switch_events (h : Regular T F) {space : AddressSpace A}
    (ho : F.owners.isLive space.owner = true) (context : Context) (flush : Bool) :
    ∃ l, (F.switch i c space context flush).trace.events.toList =
      F.trace.events.toList ++ l := by
  unfold Fleet.switch
  rcases h.switched_or_idle (c := c) ho context flush with ⟨a, x, l, l', hs⟩ | ⟨x, l, hs, -, hl, -⟩
  · obtain ⟨l₀, hl₀, -⟩ := hs.events_eq
    exact ⟨_, hl₀⟩
  · rw [hs]
    exact ⟨l, hl⟩

theorem Move.events_eq (hmove : Move F F') (h : Regular T F) :
    ∃ l, F'.trace.events.toList = F.trace.events.toList ++ l := by
  cases hmove with
  | call hstep =>
    cases hstep with
    | switch hi ho context flush => exact h.switch_events ho context flush
    | release o =>
      refine ⟨[], ?_⟩
      rw [List.append_nil]
      exact congrArg (fun tr => tr.events.toList) (Tagging.trace_release F.tagging o)
    | create => exact ⟨[], (List.append_nil _).symm⟩
    | drop => exact ⟨[], (List.append_nil _).symm⟩
    | start => exact ⟨[], (List.append_nil _).symm⟩
    | startFailed => exact ⟨[], (List.append_nil _).symm⟩
    | stop => exact ⟨[], (List.append_nil _).symm⟩
    | tamper => exact ⟨[], (List.append_nil _).symm⟩
  | assign ho => exact (h.sound.assigns ho).events_append
  | rig => exact ⟨[], (List.append_nil _).symm⟩

theorem Regular.switch_noted (h : Regular T F) (hi : F.cpus[i]? = some c)
    {space : AddressSpace A} (ho : F.owners.isLive space.owner = true) (context : Context)
    (flush : Bool) (hn : F.Noted n g e)
    (hquiet : ¬ FlushesHere F (F.switch i c space context flush) n g) :
    (F.switch i c space context flush).Noted n g e := by
  intro d hd hid
  rcases List.mem_or_eq_of_mem_set hd with hd | rfl
  · exact hn d hd hid
  · rcases h.switched_or_idle (c := c) ho context flush with ⟨a, x, l, l', hs⟩ | ⟨x, l, hs, -⟩
    · have hseen := hn c (List.mem_of_getElem? hi) (hs.id.symm.trans hid)
      have hcpu := hs.seen g
      split at hcpu
      · next htag =>
        refine hcpu.trans (congrArg some ?_)
        by_contra hne
        refine hquiet (hs.mem_flushes_iff.mpr ⟨?_, htag.symm, Or.inr ?_⟩)
        · exact congrArg some (hid.symm.trans hs.id)
        · rw [htag, hseen]
          exact fun heq => hne (Option.some.inj heq).symm
      · exact hcpu.trans hseen
    · dsimp only at hid ⊢
      rw [hs] at hid ⊢
      exact hn c (List.mem_of_getElem? hi) hid

theorem Move.noted (hmove : Move F F') (h : Regular T F) (hon : F.HasCpu n) (hn : F.Noted n g e)
    (hquiet : ¬ FlushesHere F F' n g) : F'.Noted n g e := by
  cases hmove with
  | call hstep =>
    cases hstep with
    | create => exact hn
    | drop => exact hn
    | release => exact hn
    | @start id machine vectors c hc =>
      refine List.forall_mem_cons.mpr ⟨fun hid => ?_, hn⟩
      -- The number of a CPU that is online is not given to another one.
      obtain ⟨rfl, -, hfree, -⟩ := Cpu.start_eq_ok hc
      obtain ⟨d, hd, rfl⟩ := hon
      exact absurd (hid ▸ h.registered.online d hd) hfree
    | startFailed => exact hn
    | stop => exact fun d hd => hn d ((List.eraseIdx_sublist _ _).subset hd)
    | @tamper i c hi machine =>
      intro d hd hid
      rcases List.mem_or_eq_of_mem_set hd with hd | rfl
      · exact hn d hd hid
      · exact hn c (List.mem_of_getElem? hi) hid
    | switch hi ho context flush => exact h.switch_noted hi ho context flush hn hquiet
  | assign => exact hn
  | rig => exact hn

theorem Leads.regular (h : Leads n F F') (hF : Regular T F) : Regular T F' := by
  induction h with
  | refl => exact hF
  | move _ hmove _ ih => exact hmove.regular ih

theorem Leads.events_eq (h : Leads n F F') (hF : Regular T F) :
    ∃ l, F'.trace.events.toList = F.trace.events.toList ++ l := by
  induction h with
  | refl => exact ⟨[], (List.append_nil _).symm⟩
  | move h hmove _ ih =>
    obtain ⟨l, hl⟩ := ih
    obtain ⟨l', hl'⟩ := hmove.events_eq (h.regular hF)
    exact ⟨l ++ l', by rw [hl', hl, List.append_assoc]⟩

/-- As long as a CPU does not flush a tag, it keeps to the epoch that it has noted. -/
theorem Leads.noted (h : Leads n F F') (hF : Regular T F) (hon : F.HasCpu n) (hn : F.Noted n g e)
    (hquiet : ¬ FlushesHere F F' n g) : F'.Noted n g e := by
  suffices hboth : F'.HasCpu n ∧ F'.Noted n g e from hboth.2
  induction h with
  | refl => exact ⟨hon, hn⟩
  | move h hmove hon' ih =>
    obtain ⟨l, hl⟩ := h.events_eq hF
    obtain ⟨l', hl'⟩ := hmove.events_eq (h.regular hF)
    obtain ⟨hon, hn⟩ := ih fun ⟨k, holders, hle, hk⟩ =>
      hquiet ⟨k, holders, hle, (Trace.getElem?_append hl' hk).2⟩
    refine ⟨hon', hmove.noted (h.regular hF) hon hn fun ⟨k, holders, hle, hk⟩ => ?_⟩
    exact hquiet ⟨k, holders, Nat.le_trans (Trace.size_le_of_append hl) hle, hk⟩

/-! ## After a flush that failed -/

/-- From a fleet `F` on, the CPU `n` is not told to flush the tag before the fleet `F₁`. There it
switches, and the event `m` of this switch is an entry under the tag. -/
structure Resumes (F : Fleet A μ) (n : Nat) (g : Asid) (F₁ F₂ : Fleet A μ) (flush : Bool)
    (m : Nat) : Prop where
  leads : Leads n F F₁
  quiet : ¬ FlushesHere F F₁ n g
  switch : ∃ j c space context, F₁.cpus[j]? = some c ∧ c.cpu.id = n ∧
    F₁.owners.isLive (space : AddressSpace A).owner = true ∧ F₂ = F₁.switch j c space context flush
  enters : F₁.trace.events.size ≤ m ∧
    ∃ o root frame, F₂.trace.events[m]? = some (.enter n o g root frame)

theorem FlushFails.final_eq {space : AddressSpace A} {context : Context} {flush : Bool}
    (h : FlushFails F c space.owner context flush g) (hs : F.tagging.Sound T)
    (ho : F.owners.isLive space.owner = true) :
    ∃ a x, a.tag = g ∧ F.tagging.Assigns space.owner (.ok a) x ∧
      (Switching.run space flush).final ⟨c.cpu, context, F.tagging⟩ =
        Switching.prepared ⟨c.cpu, context, F.tagging⟩ a x flush := by
  obtain ⟨hmode, ⟨a, ha, rfl⟩, hfail⟩ := h
  have hrun := Switching.run_eq (s := ⟨c.cpu, context, F.tagging⟩) space flush hmode #[]
  rcases hs.assign_run ho #[] with ⟨a', x, L', ha', hx⟩ | ⟨e, x, L', he, -⟩
  · obtain rfl : a' = a := by simpa [Action.outcome, ha'] using ha
    by_cases hcut : (flush ∨ c.cpu.seen a'.tag ≠ some a'.epoch) ∧
        a'.tag ∈ x.trace.failing (.onCpu (some c.cpu.id))
    · have hprep := Switching.prepareTag_run_failing (s := ⟨c.cpu, context, F.tagging⟩) ha' hcut.1
        hcut.2
      refine ⟨a', x, rfl, hx, ?_⟩
      rw [Action.final, hrun, Action.bind_run_error hprep]
    · have hprep := Switching.prepareTag_run (s := ⟨c.cpu, context, F.tagging⟩) (b := flush) ha'
        fun hflush hmem => hcut ⟨hflush, hmem⟩
      simp [Action.outcome, hprep] at hfail
  · simp [Action.outcome, he] at ha

theorem FlushFails.noted {space : AddressSpace A} {context : Context} {flush : Bool}
    (h : FlushFails F c space.owner context flush g) (hF : Regular T F)
    (hi : F.cpus[i]? = some c) (ho : F.owners.isLive space.owner = true) :
    ∃ e, (F.switch i c space context flush).kernel.pool.epoch g = some e ∧
      (F.switch i c space context flush).Noted c.cpu.id g e ∧
      ∃ c₁, (F.switch i c space context flush).cpus[i]? = some c₁ ∧ c₁.cpu.id = c.cpu.id ∧
        c₁.cpu.mode = .supervisor := by
  obtain ⟨a, x, rfl, hx, hfinal⟩ := h.final_eq hF.sound ho
  have hdistinct := (hF.switch hi ho context flush).registered.distinct
  unfold Fleet.switch at hdistinct ⊢
  rw [hfinal] at hdistinct ⊢
  have hlt := (List.getElem?_eq_some_iff.mp hi).1
  refine ⟨a.epoch, ?_, fun d hd hid => ?_, _, List.getElem?_set_self hlt, rfl, h.mode⟩
  · simpa [withTagging] using hx.epoch_eq hF.sound
  · obtain ⟨j, hj⟩ := List.getElem?_of_mem hd
    obtain rfl := index_eq_of_nodup_map hdistinct (List.getElem?_set_self hlt) hj hid.symm
    obtain rfl := Option.some.inj ((List.getElem?_set_self hlt).symm.trans hj)
    exact (Switching.seen_see c.cpu a a.tag).trans (if_pos rfl)

/-- When such a CPU comes back to the tag, it flushes only what it would have flushed anyway. -/
theorem Noted.flushedFirst_iff {space : AddressSpace A} {context : Context} {flush : Bool} {m : Nat}
    {o : OwnerId} {root : Word} {frame : TrapFrame} (hn : F.Noted c.cpu.id g e) (hF : Regular T F)
    (hi : F.cpus[i]? = some c) (ho : F.owners.isLive space.owner = true)
    (hm : F.trace.events.size ≤ m)
    (he : (F.switch i c space context flush).trace.events[m]? =
      some (.enter c.cpu.id o g root frame)) :
    FlushedFirst F (F.switch i c space context flush) c.cpu.id g m ↔
      flush = true ∨ (F.switch i c space context flush).kernel.pool.epoch g ≠ some e := by
  unfold Fleet.switch at he ⊢
  rcases hF.switched_or_idle (c := c) ho context flush with
    ⟨a, x, l, l', hs⟩ | ⟨x, l, hs, -, hl, hall⟩
  · obtain ⟨hafter, hmem⟩ := hs.enter_mem_run hm he
    obtain ⟨-, -, rfl⟩ := hs.enter_mem (List.mem_append_right l hmem)
    have hseen := hn c (List.mem_of_getElem? hi) rfl
    have hepoch := hs.pool_epoch hF.sound
    have hmust : (flush = true ∨ c.cpu.seen a.tag ≠ some a.epoch) ↔ flush = true ∨
        ((Switching.run space flush).final ⟨c.cpu, context, F.tagging⟩).tagging.pool.epoch a.tag ≠
          some e := by
      rw [hseen, hepoch, ne_comm]
    refine Iff.trans ⟨?_, ?_⟩ hmust
    · rintro ⟨-, k, holders, hle, -, hk⟩
      exact (hs.mem_flushes_iff.mp ⟨k, holders, hle, hk⟩).2.2
    · intro hflush
      obtain ⟨k, holders, hle, hlt, hk⟩ := hs.exists_own_flush hflush
      obtain ⟨l₀, hl₀, -⟩ := hs.assigns.events_eq
      exact ⟨hs.returned hflush (List.ne_nil_of_mem hmem), k, holders,
        Nat.le_trans (Trace.size_le_of_append hl₀) hle, Nat.lt_of_lt_of_le hlt hafter, hk⟩
  · -- A switch that got no tag has not entered.
    rw [hs] at he
    obtain ⟨t, holders, heq⟩ := hall _ ((Trace.mem_append_iff hl).mp ⟨m, hm, he⟩)
    cases heq

/-- A flush of a tag on a CPU that fails leaves the CPU in supervisor mode. When it next enters the
sandbox under the tag, it flushes the tag first if and only if it is told to do so or the tag was
flushed on all CPUs in between. -/
theorem Arises.flushed_after_failure (h : Arises F) (hi : F.cpus[i]? = some c)
    {space : AddressSpace A} (ho : F.owners.isLive space.owner = true) {context : Context}
    {flush : Bool} (hfail : FlushFails F c space.owner context flush g) :
    (∃ c₁, (F.switch i c space context flush).cpus[i]? = some c₁ ∧ c₁.cpu.id = c.cpu.id ∧
      c₁.cpu.mode = .supervisor) ∧
    ∀ F₁ F₂ flush₁ m,
      Resumes (F.switch i c space context flush) c.cpu.id g F₁ F₂ flush₁ m →
        (FlushedFirst F₁ F₂ c.cpu.id g m ↔ flush₁ = true ∨
          F₂.kernel.pool.epoch g ≠ (F.switch i c space context flush).kernel.pool.epoch g) := by
  obtain ⟨T, hF⟩ := h.regular
  obtain ⟨e, hepoch, hnoted, hcpu⟩ := hfail.noted hF hi ho
  refine ⟨hcpu, fun F₁ F₂ flush₁ m hresumes => ?_⟩
  obtain ⟨hleads, hquiet, ⟨j, c₁, space₁, context₁, hj, hid, ho₁, rfl⟩, hm, o, root, frame, he⟩ :=
    hresumes
  have hreg := hF.switch hi ho context flush
  obtain ⟨c₀, hc₀, hid₀, -⟩ := hcpu
  have hon : (F.switch i c space context flush).HasCpu c.cpu.id :=
    ⟨c₀, List.mem_of_getElem? hc₀, hid₀⟩
  have hnoted₁ := hleads.noted hreg hon hnoted hquiet
  rw [hepoch, ← hid]
  rw [← hid] at hnoted₁ he
  exact hnoted₁.flushedFirst_iff (hleads.regular hreg) hj ho₁ hm he

/-- An eviction may get its flush on all CPUs before the one on the own CPU fails. -/
example :
    let failing : FlushScope → List Asid := fun
      | .everywhere => []
      | .onCpu _ => [2]
    let x : Tagging := { contended.tagging with trace := { failing := failing } }
    let s : Switching ScriptedMachine := ⟨contender.cpu, {}, x⟩
    (Switching.run (spaceOf ⟨2⟩) false).outcome s = .error (.abort (.flushFailed 2)) ∧
    ((Switching.run (spaceOf ⟨2⟩) false).final s).tagging.trace.events =
      #[.flush .everywhere 2 [], .flush (.onCpu (some 0)) 2 [⟨2⟩]] := by
  decide +kernel

omit [Hardware μ] in
theorem not_flushesHere_of_events_eq (h : F'.trace.events = F.trace.events) :
    ¬ FlushesHere F F' n g := by
  rintro ⟨k, holders, hle, hk⟩
  rw [h, Array.getElem?_eq_none hle] at hk
  cases hk

/-- A space on a CPU with one tag. Flushes of the tag fail. -/
def rigged : Fleet .riscv64 ScriptedMachine :=
  ⟨(Cpu.start 0 caller.cpu.machine 0).final oneTag, ({} : Owners).create,
    { failing := fun _ => [2] }, [caller]⟩

/-- The CPU has tried to run the space, and now flushes return again. -/
def healed : Fleet .riscv64 ScriptedMachine :=
  { rigged.switch 0 caller (spaceOf ⟨1⟩) {} false with trace.failing := fun _ => [] }

def survivor : Online ScriptedMachine :=
  healed.cpus.headD caller

theorem arises_rigged : Arises rigged := by
  have hkernel : Kernel.create .riscv64 oneTag.opts = .ok oneTag := by decide
  have hstart : (Cpu.start 0 caller.cpu.machine 0).outcome oneTag = .ok caller.cpu := rfl
  have hspace : Arises (⟨oneTag, ({} : Owners).create, {}, []⟩ : Fleet .riscv64 ScriptedMachine) :=
    (Arises.start hkernel Owners.unbound_empty).move (.call .create)
  exact (hspace.move (.call (.start hstart))).move (.rig fun _ => [2])

theorem flushFails_rigged : FlushFails rigged caller (spaceOf ⟨1⟩).owner {} false 2 :=
  ⟨rfl, ⟨⟨2, 0, false, false⟩, by decide +kernel, rfl⟩, by decide +kernel⟩

theorem resumes_healed {flush : Bool} {m : Nat} {root : Word} {frame : TrapFrame} (hm : 1 ≤ m)
    (he : (healed.switch 0 survivor (spaceOf ⟨1⟩) {} flush).trace.events[m]? =
      some (.enter 0 ⟨1⟩ 2 root frame)) :
    Resumes (rigged.switch 0 caller (spaceOf ⟨1⟩) {} false) 0 2 healed
      (healed.switch 0 survivor (spaceOf ⟨1⟩) {} flush) flush m := by
  have hcpu : healed.cpus[0]? = some survivor := rfl
  constructor
  case leads => exact Leads.refl.move (.rig fun _ => []) ⟨survivor, List.mem_of_getElem? hcpu, rfl⟩
  case quiet => exact not_flushesHere_of_events_eq rfl
  case switch => exact ⟨0, survivor, spaceOf ⟨1⟩, {}, hcpu, rfl, by decide +kernel, rfl⟩
  case enters => exact ⟨hm, ⟨1⟩, root, frame, he⟩

/-- A CPU that is told to flush makes up for the flush that has failed. -/
theorem flushed_after_failure_healed :
    FlushedFirst healed (healed.switch 0 survivor (spaceOf ⟨1⟩) {} true) 0 2 2 := by
  have he : (healed.switch 0 survivor (spaceOf ⟨1⟩) {} true).trace.events[2]? =
      some (.enter 0 ⟨1⟩ 2 0x9000200000000001 (TrapFrame.zero.set TrapFrame.statusSlot 32)) := by
    decide +kernel
  have hlive : rigged.owners.isLive (spaceOf ⟨1⟩).owner = true := by decide +kernel
  have hafter := arises_rigged.flushed_after_failure (i := 0) rfl hlive flushFails_rigged
  exact (hafter.2 _ _ true 2 (resumes_healed (by decide) he)).mpr (Or.inl rfl)

/-- Without being told, it enters the sandbox under a tag that it has never flushed. -/
theorem enters_unflushed_healed : Arises rigged ∧
    FlushFails rigged caller (spaceOf ⟨1⟩).owner {} false 2 ∧
    Resumes (rigged.switch 0 caller (spaceOf ⟨1⟩) {} false) 0 2 healed
      (healed.switch 0 survivor (spaceOf ⟨1⟩) {} false) false 1 ∧
    ¬ FlushedFirst healed (healed.switch 0 survivor (spaceOf ⟨1⟩) {} false) 0 2 1 := by
  have he : (healed.switch 0 survivor (spaceOf ⟨1⟩) {} false).trace.events[1]? =
      some (.enter 0 ⟨1⟩ 2 0x9000200000000001 (TrapFrame.zero.set TrapFrame.statusSlot 32)) := by
    decide +kernel
  refine ⟨arises_rigged, flushFails_rigged, resumes_healed (by decide) he, ?_⟩
  rintro ⟨-, k, holders, hle, hlt, -⟩
  exact Nat.not_lt_of_le hle hlt

end Fleet

end Sandbox
