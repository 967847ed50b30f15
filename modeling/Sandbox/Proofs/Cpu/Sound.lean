import Sandbox.Proofs.Cpu.Fleet

/-! # Soundness of fleets

Whatever is called in whatever order, the pool guards its tags and each CPU knows under which
epoch it has loaded a tag.
-/

namespace Sandbox

namespace Fleet

variable {A : Architecture} {μ : Type} {F F' : Fleet A μ} {c : Online μ} {i : Nat}

/-! ## Switches -/

/-- A switch that ended in `s`: the pool has made the assignment `a` and ended in `x`, the CPU
has flushed the tag if it had to, and from then on it has only run the space. -/
structure Switched (F : Fleet A μ) (c : Online μ) (owner : OwnerId) (flush : Bool) (a : Assignment)
    (x : Tagging) (l l' : List Event) (s : Switching μ) : Prop where
  assigns : F.tagging.Assigns owner (.ok a) x
  id : s.cpu.id = c.cpu.id
  seen : ∀ t, s.cpu.seen t = if a.tag = t then some a.epoch else c.cpu.seen t
  pool : s.tagging.pool = x.pool
  owners : s.tagging.owners = x.owners
  failing : s.tagging.trace.failing = x.trace.failing
  events : s.tagging.trace.events.toList = x.trace.events.toList ++ (l ++ l')
  flushed : ∀ e, e ∈ l ↔ (flush = true ∨ c.cpu.seen a.tag ≠ some a.epoch) ∧
    e = .flush (.onCpu (some c.cpu.id)) a.tag (x.owners.holders a.tag)
  run : ∀ e ∈ l', e.OfRun c.cpu.id owner a.tag
  /-- The CPU does not run before its own flush has returned. -/
  returned : (flush = true ∨ c.cpu.seen a.tag ≠ some a.epoch) → l' ≠ [] →
    a.tag ∉ F.trace.failing (.onCpu (some c.cpu.id))

theorem Switched.of_ran {owner : OwnerId} {flush : Bool} {a : Assignment} {x : Tagging}
    {context : Context} {s : Switching μ} (l' : List Event) (hx : F.tagging.Assigns owner (.ok a) x)
    (hran : Switching.Ran owner a.tag
      (Switching.prepared ⟨c.cpu, context, F.tagging⟩ a x flush) s)
    (hl' : s.tagging.trace.events.toList =
      (Switching.prepared ⟨c.cpu, context, F.tagging⟩ a x flush).tagging.trace.events.toList ++ l')
    (hrun : ∀ e ∈ l', e.OfRun c.cpu.id owner a.tag)
    (hret : (flush = true ∨ c.cpu.seen a.tag ≠ some a.epoch) → l' ≠ [] →
      a.tag ∉ F.trace.failing (.onCpu (some c.cpu.id))) :
    ∃ l, Switched F c owner flush a x l l' s := by
  have hl := Switching.events_prepared ⟨c.cpu, context, F.tagging⟩ a x flush
  refine ⟨_, hx, hran.id, ?_, by simp [hran.pool], by simp [hran.owners], by simp [hran.failing],
    hl'.trans ((congrArg (· ++ l') hl).trans (List.append_assoc ..)), ?_, hrun, hret⟩
  · exact fun t => (hran.seen_eq t).trans (Switching.seen_see c.cpu a t)
  · intro e
    split <;> simp [*]

theorem switched_or_stuck [Hardware μ] {T : List Asid} (hs : F.tagging.Sound T)
    (hmode : c.cpu.mode = .supervisor) {space : AddressSpace A}
    (ho : F.owners.isLive space.owner = true) (context : Context) (flush : Bool) :
    (∃ a x l l', Switched F c space.owner flush a x l l'
      ((Switching.run space flush).final ⟨c.cpu, context, F.tagging⟩)) ∨
    ∃ e x, F.tagging.Assigns space.owner (.error e) x ∧
      (Switching.run space flush).final ⟨c.cpu, context, F.tagging⟩ = ⟨c.cpu, context, x⟩ := by
  have hfares := Switching.run_fares (s := ⟨c.cpu, context, F.tagging⟩) space flush hmode hs ho
  generalize (Switching.run space flush).final ⟨c.cpu, context, F.tagging⟩ = s at hfares
  cases hfares with
  | stuck hx => exact Or.inr ⟨_, _, hx, rfl⟩
  | cut hx =>
    obtain ⟨l, hl⟩ := Switched.of_ran [] hx (.refl _) (List.append_nil _).symm nofun
      fun _ hne => absurd rfl hne
    exact Or.inl ⟨_, _, l, [], hl⟩
  | ran hx hret hran =>
    obtain ⟨l', hl', hrun⟩ := hran.events
    obtain ⟨l, hl⟩ := Switched.of_ran l' hx hran hl' hrun fun hflush _ => hret hflush
    exact Or.inl ⟨_, _, l, l', hl⟩

theorem exists_switched [Hardware μ] {T : List Asid} (hg : F.tagging.Guarded T)
    (hmode : c.cpu.mode = .supervisor) {space : AddressSpace A}
    (ho : F.owners.isLive space.owner = true) (context : Context) (flush : Bool) :
    ∃ a x l l', Switched F c space.owner flush a x l l'
      ((Switching.run space flush).final ⟨c.cpu, context, F.tagging⟩) := by
  refine (switched_or_stuck hg.counted.sound hmode ho context flush).resolve_right ?_
  rintro ⟨e, x, hx, -⟩
  cases hx with
  | stuck _ _ _ hr =>
    rw [hg.failing] at hr
    cases hr

namespace Switched

variable {T : List Asid} {owner : OwnerId} {flush : Bool} {a : Assignment} {x : Tagging}
  {l l' : List Event} {s : Switching μ}

theorem quiet (h : Switched F c owner flush a x l l' s) :
    ∀ e ∈ l ++ l', ∀ t, e.flushes t = false := by
  intro e he t
  rcases List.mem_append.mp he with he | he
  · rw [((h.flushed e).mp he).2]
    rfl
  · cases h.run e he <;> rfl

theorem flushes_eq (h : Switched F c owner flush a x l l' s) (t : Asid) :
    s.tagging.trace.flushes t = x.trace.flushes t :=
  Trace.flushes_of_quiet h.events h.quiet

theorem epoch_eq (h : Switched F c owner flush a x l l' s) (hg : F.tagging.Guarded T) :
    a.epoch = s.tagging.trace.flushes a.tag := by
  rw [h.flushes_eq, (hg.counted.assigned h.assigns).2]

theorem slot_eq (h : Switched F c owner flush a x l l' s) (hg : F.tagging.Guarded T) :
    s.tagging.owners.tag owner = a.tag := by
  rw [h.owners, Owners.tag_eq (h.assigns.tag?_eq hg.counted.sound)]

theorem events_eq (h : Switched F c owner flush a x l l' s) :
    ∃ l₀, s.tagging.trace.events.toList = F.trace.events.toList ++ (l₀ ++ (l ++ l')) ∧
      ∀ e ∈ l₀, ∃ holders, e = .flush .everywhere a.tag holders := by
  obtain ⟨l₀, hl₀, hassigned⟩ := h.assigns.events_eq
  exact ⟨l₀, by rw [h.events, hl₀, List.append_assoc]; rfl, hassigned⟩

theorem enter_mem (h : Switched F c owner flush a x l l' s) {cpu : Nat} {o : OwnerId} {t : Asid}
    {root : Word} {frame : TrapFrame} (hmem : .enter cpu o t root frame ∈ l ++ l') :
    cpu = c.cpu.id ∧ o = owner ∧ t = a.tag := by
  rcases List.mem_append.mp hmem with hmem | hmem
  · cases ((h.flushed _).mp hmem).2
  · cases h.run _ hmem
    exact ⟨rfl, rfl, rfl⟩

theorem guarded (h : Switched F c owner flush a x l l' s) (hg : F.tagging.Guarded T) :
    s.tagging.Guarded T := by
  refine (hg.assigned h.assigns).append h.pool h.owners h.failing h.events h.quiet ?_
  intro cpu o t root frame hmem
  obtain ⟨-, rfl, rfl⟩ := h.enter_mem hmem
  obtain ⟨i, r, hi, htag, hdirty, howner⟩ := h.assigns.owner_eq hg.counted.sound
  exact ⟨i, r, hi, htag, hdirty, Or.inl howner⟩

theorem tracks_before (h : Switched F c owner flush a x l l' s) (ht : Tracks c F.trace) :
    Tracks c s.tagging.trace := by
  obtain ⟨l₀, hl₀, -⟩ := h.events_eq
  exact ht.append hl₀

theorem le_of_enter (h : Switched F c owner flush a x l l' s) {j cpu : Nat} {o : OwnerId} {t : Asid}
    {root : Word} {frame : TrapFrame} (hj : F.trace.events.size ≤ j)
    (he : s.tagging.trace.events[j]? = some (.enter cpu o t root frame)) :
    x.trace.events.size + l.length ≤ j := by
  obtain ⟨l₀, hl₀, hassigned⟩ := h.assigns.events_eq
  rcases Trace.getElem?_of_append h.events he with ⟨-, hx⟩ | ⟨hle, -⟩
  · rcases Trace.getElem?_of_append hl₀ hx with ⟨hlt, -⟩ | ⟨-, hmem⟩
    · exact absurd hj (Nat.not_le_of_lt hlt)
    · obtain ⟨holders, heq⟩ := hassigned _ hmem
      cases heq
  · by_contra hlt
    have hpos : j - x.trace.events.size < l.length := by omega
    rw [← Array.getElem?_toList, h.events, List.getElem?_append_right (by rwa [Array.length_toList]),
      Array.length_toList, List.getElem?_append_left hpos] at he
    cases ((h.flushed _).mp (List.mem_of_getElem? he)).2

theorem enter_mem_run (h : Switched F c owner flush a x l l' s) {j cpu : Nat} {o : OwnerId} {t : Asid}
    {root : Word} {frame : TrapFrame} (hj : F.trace.events.size ≤ j)
    (he : s.tagging.trace.events[j]? = some (.enter cpu o t root frame)) :
    x.trace.events.size + l.length ≤ j ∧ .enter cpu o t root frame ∈ l' := by
  have hle := h.le_of_enter hj he
  refine ⟨hle, ?_⟩
  rcases Trace.getElem?_of_append h.events he with ⟨hlt, -⟩ | ⟨-, hmem⟩
  · exact absurd (Nat.le_of_add_right_le hle) (Nat.not_le_of_lt hlt)
  · refine (List.mem_append.mp hmem).resolve_left fun hmem => ?_
    cases ((h.flushed _).mp hmem).2

theorem pool_epoch (h : Switched F c owner flush a x l l' s) (hs : F.tagging.Sound T) :
    s.tagging.pool.epoch a.tag = some a.epoch := by
  rw [h.pool, h.assigns.epoch_eq hs]

theorem exists_own_flush (h : Switched F c owner flush a x l l' s)
    (hflush : flush = true ∨ c.cpu.seen a.tag ≠ some a.epoch) :
    ∃ k holders, x.trace.events.size ≤ k ∧ k < x.trace.events.size + l.length ∧
      s.tagging.trace.events[k]? = some (.flush (.onCpu (some c.cpu.id)) a.tag holders) := by
  obtain ⟨m, hm⟩ := List.getElem?_of_mem ((h.flushed _).mpr ⟨hflush, rfl⟩)
  have hlt : m < l.length := (List.getElem?_eq_some_iff.mp hm).1
  refine ⟨x.trace.events.size + m, x.owners.holders a.tag, Nat.le_add_right _ _,
    Nat.add_lt_add_left hlt _, ?_⟩
  rw [← Array.getElem?_toList, h.events, ← Array.length_toList,
    List.getElem?_append_right (Nat.le_add_right _ _), Nat.add_sub_cancel_left,
    List.getElem?_append_left hlt, hm]

/-- The CPU has flushed the tag in its current epoch, in this switch or earlier. -/
theorem exists_flush (h : Switched F c owner flush a x l l' s) (hg : F.tagging.Guarded T)
    (ht : Tracks c F.trace) : ∃ k holders, c.start ≤ k ∧ k < x.trace.events.size + l.length ∧
      s.tagging.trace.events[k]? = some (.flush (.onCpu (some c.cpu.id)) a.tag holders) ∧
      s.tagging.trace.flushesBefore k a.tag = s.tagging.trace.flushes a.tag := by
  obtain ⟨l₀, hl₀, -⟩ := h.assigns.events_eq
  have hsize : F.trace.events.size ≤ x.trace.events.size := Trace.size_le_of_append hl₀
  by_cases hflush : flush = true ∨ c.cpu.seen a.tag ≠ some a.epoch
  · obtain ⟨k, holders, hle, hlt, hk⟩ := h.exists_own_flush hflush
    refine ⟨k, holders, Nat.le_trans ht.start_le (Nat.le_trans hsize hle), hlt, hk,
      Nat.le_antisymm Trace.flushesBefore_le ?_⟩
    calc s.tagging.trace.flushes a.tag = x.trace.flushes a.tag := h.flushes_eq a.tag
      _ = s.tagging.trace.flushesBefore x.trace.events.size a.tag := by
        rw [Trace.flushesBefore_of_append h.events (Nat.le_refl _), Trace.flushesBefore_size]
      _ ≤ s.tagging.trace.flushesBefore k a.tag := Trace.flushesBefore_mono hle
  · have hseen := of_not_not fun hne => hflush (Or.inr hne)
    obtain ⟨k, holders, hstart, hk, heq⟩ := ht.flushed hseen
    obtain ⟨l₁, hl₁, -⟩ := h.events_eq
    obtain ⟨hlt, hk'⟩ := Trace.getElem?_append hl₁ hk
    refine ⟨k, holders, hstart, Nat.lt_of_lt_of_le hlt (Nat.le_add_right_of_le hsize), hk', ?_⟩
    rw [Trace.flushesBefore_of_append hl₁ (Nat.le_of_lt hlt), heq, h.epoch_eq hg]

theorem tracks (h : Switched F c owner flush a x l l' s) (hg : F.tagging.Guarded T)
    (ht : Tracks c F.trace) : Tracks { c with
      cpu := s.cpu, loads := (a.tag, s.tagging.trace.events.size) :: c.loads } s.tagging.trace := by
  obtain ⟨k, holders, hstart, -, hk⟩ := h.exists_flush hg ht
  exact (h.tracks_before ht).load h.id (h.epoch_eq hg ▸ h.seen) ⟨k, holders, hstart, hk⟩

end Switched

/-! ## The numbers of CPUs -/

structure Registered (F : Fleet A μ) : Prop where
  distinct : (F.cpus.map fun c => c.cpu.id).Nodup
  online : ∀ c ∈ F.cpus, F.kernel.online.Has c.cpu.id

namespace Registered

theorem start (h : Registered F) {id : Nat} {machine : μ} {vectors : Word} {c : Cpu μ}
    (hc : (Cpu.start id machine vectors).outcome F.kernel = .ok c) :
    Registered { F with
      kernel := (Cpu.start id machine vectors).final F.kernel
      cpus := ⟨c, F.trace.events.size, []⟩ :: F.cpus } := by
  obtain ⟨rfl, -, hfree, s, hs, hfinal⟩ := Cpu.start_eq_ok hc
  rw [hfinal]
  constructor
  · refine List.nodup_cons.mpr ⟨fun hmem => ?_, h.distinct⟩
    obtain ⟨c', hc', heq⟩ := List.mem_map.mp hmem
    have hid : c'.cpu.id = c.id := heq
    exact hfree (hid ▸ h.online c' hc')
  · refine List.forall_mem_cons.mpr ⟨?_, fun c' hc' => ?_⟩
    · exact (CpuSet.has_insert_iff hs).mpr (Or.inl rfl)
    · exact (CpuSet.has_insert_iff hs).mpr (Or.inr (h.online c' hc'))

theorem startFailed (h : Registered F) (id : Nat) (machine : μ) (vectors : Word) :
    Registered { F with kernel := (Cpu.start id machine vectors).final F.kernel } := by
  rcases Cpu.start_final F.kernel id machine vectors with heq | ⟨s, hs, heq⟩
  · rw [heq]
    exact h
  · rw [heq]
    exact ⟨h.distinct, fun c hc => (CpuSet.has_insert_iff hs).mpr (Or.inr (h.online c hc))⟩

theorem stop (h : Registered F) (hi : F.cpus[i]? = some c) :
    Registered { F with
      kernel := (Kernel.unregister c.cpu.id).final F.kernel
      cpus := F.cpus.eraseIdx i } := by
  have hsub : (F.cpus.eraseIdx i).Sublist F.cpus := List.eraseIdx_sublist _ _
  have hdistinct := h.distinct.sublist (hsub.map fun d => d.cpu.id)
  rcases Kernel.unregister_final F.kernel c.cpu.id with heq | ⟨s, hs, heq⟩
  · rw [heq]
    exact ⟨hdistinct, fun d hd => h.online d (hsub.subset hd)⟩
  · rw [heq]
    refine ⟨hdistinct, fun d hd => (CpuSet.has_erase_iff hs).mpr ⟨?_, ?_⟩⟩
    · -- the number of a CPU that stays is at another position
      obtain ⟨j, hj, hjd⟩ := List.mem_eraseIdx_iff_getElem?.mp hd
      exact fun hid => hj (index_eq_of_nodup_map h.distinct hjd hi hid)
    · exact h.online d (hsub.subset hd)

theorem set (h : Registered F) (hi : F.cpus[i]? = some c) (c' : Online μ)
    (hid : c'.cpu.id = c.cpu.id) (x : Tagging) :
    Registered { F.withTagging x with cpus := F.cpus.set i c' } := by
  refine ⟨?_, fun d hd => ?_⟩
  · rw [map_set_eq hi hid]
    exact h.distinct
  · rcases List.mem_or_eq_of_mem_set hd with hd | rfl
    · exact h.online d hd
    · exact hid.symm ▸ h.online c (List.mem_of_getElem? hi)

end Registered

/-! ## Every call keeps a fleet sound -/

/-- The pool guards its tags, each CPU knows what it has loaded, and the kernel knows which
numbers are taken. -/
structure Sound (T : List Asid) (F : Fleet A μ) : Prop where
  guarded : F.tagging.Guarded T
  tracks : ∀ c ∈ F.cpus, Tracks c F.trace
  registered : Registered F

variable {T : List Asid}

namespace Sound

theorem withTagging (h : Sound T F) {x : Tagging} {l : List Event} (hx : x.Guarded T)
    (hl : x.trace.events.toList = F.trace.events.toList ++ l) : Sound T (F.withTagging x) :=
  ⟨hx, fun c hc => (h.tracks c hc).append hl, h.registered.distinct, h.registered.online⟩

theorem release (h : Sound T F) (o : OwnerId) :
    Sound T (F.withTagging ((Tagging.release o).final F.tagging)) := by
  refine h.withTagging (l := []) (h.guarded.release o) ?_
  rw [Tagging.trace_release, List.append_nil]
  rfl

theorem start (h : Sound T F) {id : Nat} {machine : μ} {vectors : Word} {c : Cpu μ}
    (hc : (Cpu.start id machine vectors).outcome F.kernel = .ok c) :
    Sound T { F with
      kernel := (Cpu.start id machine vectors).final F.kernel
      cpus := ⟨c, F.trace.events.size, []⟩ :: F.cpus } := by
  have hregistered := h.registered.start hc
  obtain ⟨rfl, hnone, -, s, -, hfinal⟩ := Cpu.start_eq_ok hc
  rw [hfinal] at hregistered ⊢
  refine ⟨h.guarded, ?_, hregistered⟩
  refine List.forall_mem_cons.mpr ⟨⟨Nat.le_refl _, ?_, ?_, nofun⟩, h.tracks⟩
  · exact fun {t _} he => absurd ((hnone t).symm.trans he) nofun
  · exact fun {t _} he => absurd ((hnone t).symm.trans he) nofun

theorem startFailed (h : Sound T F) (id : Nat) (machine : μ) (vectors : Word) :
    Sound T { F with kernel := (Cpu.start id machine vectors).final F.kernel } := by
  have hregistered := h.registered.startFailed id machine vectors
  rcases Cpu.start_final F.kernel id machine vectors with heq | ⟨s, -, heq⟩
  · rw [heq]
    exact h
  · rw [heq] at hregistered ⊢
    exact ⟨h.guarded, h.tracks, hregistered⟩

theorem stop (h : Sound T F) (hi : F.cpus[i]? = some c) :
    Sound T { F with
      kernel := (Kernel.unregister c.cpu.id).final F.kernel
      cpus := F.cpus.eraseIdx i } := by
  have hregistered := h.registered.stop hi
  have htracks : ∀ d ∈ F.cpus.eraseIdx i, Tracks d F.trace :=
    fun d hd => h.tracks d ((List.eraseIdx_sublist _ _).subset hd)
  rcases Kernel.unregister_final F.kernel c.cpu.id with heq | ⟨s, -, heq⟩
  · rw [heq] at hregistered ⊢
    exact ⟨h.guarded, htracks, hregistered⟩
  · rw [heq] at hregistered ⊢
    exact ⟨h.guarded, htracks, hregistered⟩

theorem set (h : Sound T F) (hi : F.cpus[i]? = some c) (c' : Online μ) {x : Tagging}
    {l : List Event} (hid : c'.cpu.id = c.cpu.id) (hx : x.Guarded T)
    (hl : x.trace.events.toList = F.trace.events.toList ++ l) (hc' : Tracks c' x.trace) :
    Sound T { F.withTagging x with cpus := F.cpus.set i c' } := by
  refine ⟨hx, fun d hd => ?_, h.registered.set hi c' hid x⟩
  rcases List.mem_or_eq_of_mem_set hd with hd | rfl
  · exact (h.tracks d hd).append hl
  · exact hc'

theorem switch [Hardware μ] (h : Sound T F) (hi : F.cpus[i]? = some c) {space : AddressSpace A}
    (ho : F.owners.isLive space.owner = true) (context : Context) (flush : Bool) :
    Sound T (F.switch i c space context flush) := by
  have ht := h.tracks c (List.mem_of_getElem? hi)
  unfold Fleet.switch
  by_cases hmode : c.cpu.mode = .supervisor
  · obtain ⟨a, x, l, l', hs⟩ := exists_switched h.guarded hmode ho context flush
    obtain ⟨l₀, hl₀, -⟩ := hs.events_eq
    dsimp only
    rw [if_pos hmode, hs.slot_eq h.guarded]
    exact h.set hi _ hs.id (hs.guarded h.guarded) hl₀ (hs.tracks h.guarded ht)
  · rw [Switching.run_final_of_sandboxed (s := ⟨c.cpu, context, F.tagging⟩) space flush hmode]
    dsimp only
    rw [if_neg hmode]
    exact h.set (l := []) hi _ rfl h.guarded (List.append_nil _).symm ht

end Sound

theorem Step.sound [Hardware μ] (hstep : Step F F') (h : Sound T F) : Sound T F' := by
  cases hstep with
  | create => exact h.withTagging (l := []) h.guarded.create (List.append_nil _).symm
  | drop o => exact h.withTagging (l := []) (h.guarded.drop o) (List.append_nil _).symm
  | release o => exact h.release o
  | start hc => exact h.start hc
  | startFailed => exact h.startFailed _ _ _
  | stop hi => exact h.stop hi
  | @tamper _ c hi machine =>
    obtain ⟨hstart, hloaded, hflushed, hseen⟩ := h.tracks _ (List.mem_of_getElem? hi)
    exact h.set (l := []) hi { c with cpu.machine := machine } rfl h.guarded
      (List.append_nil _).symm ⟨hstart, hloaded, hflushed, hseen⟩
  | switch hi ho context flush => exact h.switch hi ho context flush

/-- Whatever calls have led to a fleet, it is sound. -/
theorem Reachable.sound [Hardware μ] (h : Reachable F) : ∃ T, Sound T F := by
  induction h with
  | start hk hw =>
    obtain ⟨pool, hpool, rfl⟩ := Kernel.create_eq_ok hk
    have hcounted := (Tagging.Recorded.of_create hpool hw).counted
    refine ⟨_, ⟨hcounted, fun _ => rfl, fun hk => ?_⟩, ?_, List.nodup_nil, ?_⟩
    · cases Array.getElem?_empty.symm.trans hk
    · exact fun c hc => absurd hc List.not_mem_nil
    · exact fun c hc => absurd hc List.not_mem_nil
  | step _ hstep ih =>
    obtain ⟨T, hF⟩ := ih
    exact ⟨T, hstep.sound hF⟩

end Fleet

end Sandbox
