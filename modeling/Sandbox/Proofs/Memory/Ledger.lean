import Sandbox.Proofs.Walk.Accounts

/-! # The ledger of a memory

The ledger of a memory lists what was asked of it and what it answered, the latest first. Who
holds an array and which array is handed out next can be read off the ledger alone, and the
memory's own books agree with it. The heap is trusted with one thing: what it gives is not in
use.
-/

namespace Sandbox

namespace Memory

inductive Deal where
  | request (answer : Except Stop (Option PhysicalAddress))
  | free (a : PhysicalAddress) (answer : Except Stop Unit)
  | drain
  | write (a : PhysicalAddress) (i : Fin 512) (w : Word)

namespace Deal

abbrev handed (a : PhysicalAddress) : Deal := .request (.ok (some a))

abbrev returned (a : PhysicalAddress) : Deal := .free a (.ok ())

end Deal

section Ledgers

variable {d x : Deal} {p : Deal → Prop} {ds : List Deal} {a b : PhysicalAddress}

/-- The deal is in the ledger, and after it none with `p`. -/
def Since (d : Deal) (p : Deal → Prop) (ds : List Deal) : Prop :=
  ∃ new old, ds = new ++ d :: old ∧ ∀ x ∈ new, ¬ p x

theorem not_since_nil : ¬ Since d p [] := by
  rintro ⟨new, old, h, -⟩
  cases new <;> cases h

theorem since_cons : Since d p (x :: ds) ↔ x = d ∨ ¬ p x ∧ Since d p ds := by
  constructor
  · rintro ⟨new, old, h, hnew⟩
    cases new with
    | nil =>
      cases h
      exact Or.inl rfl
    | cons y new =>
      cases h
      exact Or.inr ⟨hnew x List.mem_cons_self,
        new, old, rfl, fun z hz => hnew z (List.mem_cons_of_mem x hz)⟩
  · rintro (rfl | ⟨hx, new, old, rfl, hnew⟩)
    · exact ⟨[], ds, rfl, nofun⟩
    · exact ⟨x :: new, old, rfl, List.forall_mem_cons.mpr ⟨hx, hnew⟩⟩

/-- The array was handed out and has not come back since. -/
def Out (ds : List Deal) (a : PhysicalAddress) : Prop :=
  Since (.handed a) (fun x => x = .returned a) ds

def Departs (a : PhysicalAddress) (x : Deal) : Prop :=
  x = .drain ∨ x = .handed a

/-- The array came back, and since then it was neither handed out nor drained. -/
def Waiting (ds : List Deal) (a : PhysicalAddress) : Prop :=
  Since (.returned a) (Departs a) ds

/-- Of the arrays that wait, this one came back last. -/
def LastBack (ds : List Deal) (a : PhysicalAddress) : Prop :=
  ∃ new old, ds = new ++ .returned a :: old ∧ (∀ x ∈ new, ¬ Departs a x) ∧ ∀ b, ¬ Waiting new b

@[simp] theorem not_departs_free (answer : Except Stop Unit) : ¬ Departs a (.free b answer) := by
  simp [Departs]

@[simp] theorem departs_request {answer : Except Stop (Option PhysicalAddress)} :
    Departs a (.request answer) ↔ answer = .ok (some a) := by
  simp [Departs]

@[simp] theorem departs_drain : Departs a .drain := Or.inl rfl

theorem not_waiting_nil : ¬ Waiting [] a := not_since_nil

theorem waiting_cons : Waiting (x :: ds) a ↔ x = .returned a ∨ ¬ Departs a x ∧ Waiting ds a :=
  since_cons

theorem out_cons : Out (x :: ds) a ↔ x = .handed a ∨ x ≠ .returned a ∧ Out ds a :=
  since_cons

end Ledgers

variable {limit : Option Nat} {place : Nat → PhysicalAddress} {m : Memory} {ds : List Deal}
  {a : PhysicalAddress}

/-! ## One deal -/

/-- If the heap is asked now, it gives an array that is not in use. -/
def HeapSpare (m : Memory) : Prop :=
  m.limitReached = false → m.pool = [] → m.place m.fresh ∉ m.live

theorem request_full (h : m.limitReached = true) :
    allocate?.outcome m = .ok none ∧ allocate?.final m = m := by
  simp only [Action.outcome, Action.final, allocate?_run_full h, and_self]

theorem request_served (h : m.limitReached = false) :
    allocate?.outcome m = .ok (some m.nextArray) ∧ allocate?.final m = m.handOut := by
  simp only [Action.outcome, Action.final, allocate?_run h, and_self]

/-- The next array, if it comes from the pool, is the only one that the pool loses. -/
theorem mem_tail_pool (h : m.pool.Nodup) : a ∈ m.pool.tail ↔ a ≠ m.nextArray ∧ a ∈ m.pool := by
  rcases m.nextArray_cases with ⟨hpool, -⟩ | ⟨rest, hpool, -⟩
  · simp [hpool]
  · rw [hpool, List.nodup_cons] at h
    rw [hpool, List.tail_cons, List.mem_cons]
    constructor
    · exact fun ha => ⟨fun hc => h.1 (hc ▸ ha), Or.inr ha⟩
    · exact fun ha => ha.2.resolve_left ha.1

theorem free_live (h : a ∈ m.live) :
    (free a).outcome m = .ok () ∧ (free a).final m = m.giveBack a := by
  have hrun : free a ⟨m, #[]⟩ = .ok () ⟨m.giveBack a, #[]⟩ := by
    change (if m.live.contains a = true then Action.update fun m => m.giveBack a
      else Action.abort .notLive : Action Memory Unit) ⟨m, #[]⟩ = _
    rw [if_pos (Std.ExtTreeSet.mem_iff_contains.mp h)]
    rfl
  simp only [Action.outcome, Action.final, hrun, and_self]

theorem free_not_live (h : a ∉ m.live) :
    (free a).outcome m = .error (.abort .notLive) ∧ (free a).final m = m := by
  have hrun : free a ⟨m, #[]⟩ = .error (.abort .notLive) ⟨m, #[]⟩ := by
    change (if m.live.contains a = true then Action.update fun m => m.giveBack a
      else Action.abort .notLive : Action Memory Unit) ⟨m, #[]⟩ = _
    rw [if_neg fun hc => h (Std.ExtTreeSet.mem_iff_contains.mpr hc)]
    rfl
  simp only [Action.outcome, Action.final, hrun, and_self]

@[simp] theorem live_drain : m.drain.live = m.live := rfl
@[simp] theorem pool_drain : m.drain.pool = [] := rfl

/-! ## All deals -/

/-- The memory after the deals of a ledger. Writes may go anywhere. -/
inductive Used (limit : Option Nat) (place : Nat → PhysicalAddress) : List Deal → Memory → Prop
  | new : Used limit place [] { limit := limit, place := place }
  | request {ds : List Deal} {m : Memory} : Used limit place ds m → m.HeapSpare →
      Used limit place (.request (allocate?.outcome m) :: ds) (allocate?.final m)
  | free {ds : List Deal} {m : Memory} (a : PhysicalAddress) : Used limit place ds m →
      Used limit place (.free a ((free a).outcome m) :: ds) ((free a).final m)
  | drain {ds : List Deal} {m : Memory} : Used limit place ds m →
      Used limit place (.drain :: ds) m.drain
  | write {ds : List Deal} {m : Memory} (a : PhysicalAddress) (i : Fin 512) (w : Word) :
      Used limit place ds m → Used limit place (.write a i w :: ds) (m.setEntry a i w)

structure Agrees (limit : Option Nat) (ds : List Deal) (m : Memory) : Prop where
  limit_eq : m.limit = limit
  within : ∀ L, limit = some L → m.liveCount ≤ L
  balance : m.allocations = m.frees + m.liveCount
  live_iff : ∀ a, a ∈ m.live ↔ Out ds a
  pool_iff : ∀ a, a ∈ m.pool ↔ Waiting ds a
  pool_nodup : m.pool.Nodup
  pool_not_live : ∀ a ∈ m.pool, a ∉ m.live
  /-- The pool is a stack: what came back after an array and still waits lies above it. -/
  stacked : ∀ above a below, m.pool = above ++ a :: below → ∃ new old,
    ds = new ++ .returned a :: old ∧ (∀ x ∈ new, ¬ Departs a x) ∧ ∀ b, Waiting new b → b ∈ above

namespace Agrees

theorem new : Agrees limit [] { limit := limit, place := place } where
  limit_eq := rfl
  within _ _ := Nat.zero_le _
  balance := rfl
  live_iff a := by simp [Out, not_since_nil]
  pool_iff a := by simp [not_waiting_nil]
  pool_nodup := List.nodup_nil
  pool_not_live := nofun
  stacked above a below h := by simp at h

theorem idle {x : Deal} {m' : Memory} (h : Agrees limit ds m) (hs : SameBooks m m')
    (hhanded : ∀ a, x ≠ .handed a) (hreturned : ∀ a, x ≠ .returned a) (hdrain : x ≠ .drain) :
    Agrees limit (x :: ds) m' where
  limit_eq := hs.limit.trans h.limit_eq
  within L hL := by
    rw [liveCount, hs.live]
    exact h.within L hL
  balance := by
    rw [hs.allocations, hs.frees, liveCount, hs.live]
    exact h.balance
  live_iff a := by
    rw [hs.live, out_cons, h.live_iff a]
    simp [hhanded, hreturned]
  pool_iff a := by
    rw [hs.pool, waiting_cons, h.pool_iff a]
    simp [Departs, hhanded, hreturned, hdrain]
  pool_nodup := hs.pool ▸ h.pool_nodup
  pool_not_live a ha := by
    rw [hs.live]
    exact h.pool_not_live a (hs.pool ▸ ha)
  stacked above a below hpool := by
    obtain ⟨new, old, rfl, hnew, habove⟩ := h.stacked above a below (hs.pool ▸ hpool)
    have hx : ∀ a, ¬ Departs a x := fun a => not_or.mpr ⟨hdrain, hhanded a⟩
    refine ⟨x :: new, old, rfl, List.forall_mem_cons.mpr ⟨hx a, hnew⟩, fun b hb => ?_⟩
    exact habove b ((waiting_cons.mp hb).resolve_left (hreturned b)).2

theorem nextArray_not_live (h : Agrees limit ds m) (hheap : m.HeapSpare)
    (hroom : m.limitReached = false) : m.nextArray ∉ m.live := by
  rcases m.nextArray_cases with ⟨hpool, hnext, -⟩ | ⟨rest, hpool, -⟩
  · rw [hnext]
    exact hheap hroom hpool
  · exact h.pool_not_live _ (by rw [hpool]; exact List.mem_cons_self)

theorem agrees_handOut (h : Agrees limit ds m) (hheap : m.HeapSpare)
    (hroom : m.limitReached = false) : Agrees limit (.handed m.nextArray :: ds) m.handOut := by
  have hnew := h.nextArray_not_live hheap hroom
  have hcount := liveCount_handOut hnew
  have hpool (a : PhysicalAddress) := mem_tail_pool (a := a) h.pool_nodup
  constructor
  case limit_eq => exact h.limit_eq
  case within =>
    intro L hL
    have := lt_of_limitReached_eq_false hroom (h.limit_eq.trans hL)
    omega
  case balance =>
    have hallocations : m.handOut.allocations = m.allocations + 1 := rfl
    have hfrees : m.handOut.frees = m.frees := rfl
    have := h.balance
    omega
  case live_iff =>
    intro a
    rw [mem_live_handOut, out_cons, h.live_iff a]
    simp [eq_comm]
  case pool_iff =>
    intro a
    rw [pool_handOut, hpool, waiting_cons, h.pool_iff a]
    simp [eq_comm]
  case pool_nodup => exact h.pool_nodup.tail
  case pool_not_live =>
    intro a ha
    rw [pool_handOut, hpool] at ha
    rw [mem_live_handOut, not_or]
    exact ⟨ha.1, h.pool_not_live a ha.2⟩
  case stacked =>
    intro above a below htail
    rcases m.nextArray_cases with ⟨hempty, -⟩ | ⟨rest, hcons, -⟩
    · simp [hempty] at htail
    rw [pool_handOut] at htail
    have ha : a ≠ m.nextArray := ((hpool a).mp (by rw [htail]; simp)).1
    rw [hcons, List.tail_cons] at htail
    obtain ⟨new, old, rfl, hnew, habove⟩ := h.stacked (m.nextArray :: above) a below
      (by rw [hcons, htail, List.cons_append])
    refine ⟨_ :: new, old, rfl, List.forall_mem_cons.mpr ⟨by simpa using Ne.symm ha, hnew⟩, ?_⟩
    intro b hb
    simp only [waiting_cons, reduceCtorEq, departs_request, Except.ok.injEq, Option.some.injEq,
      false_or] at hb
    exact (List.mem_cons.mp (habove b hb.2)).resolve_left (Ne.symm hb.1)

theorem agrees_giveBack (h : Agrees limit ds m) (ha : a ∈ m.live) :
    Agrees limit (.returned a :: ds) (m.giveBack a) := by
  have hcount := liveCount_giveBack ha
  constructor
  case limit_eq => exact h.limit_eq
  case within =>
    intro L hL
    have := h.within L hL
    omega
  case balance =>
    have hallocations : (m.giveBack a).allocations = m.allocations := rfl
    have hfrees : (m.giveBack a).frees = m.frees + 1 := rfl
    have := h.balance
    omega
  case live_iff =>
    intro b
    rw [mem_live_giveBack, out_cons, h.live_iff b]
    simp [eq_comm]
  case pool_iff =>
    intro b
    rw [pool_giveBack, List.mem_cons, waiting_cons, h.pool_iff b]
    simp [eq_comm]
  case pool_nodup =>
    exact List.nodup_cons.mpr ⟨fun hp => h.pool_not_live a hp ha, h.pool_nodup⟩
  case pool_not_live =>
    intro b hb
    rw [mem_live_giveBack]
    rintro ⟨hne, hlive⟩
    exact h.pool_not_live b ((List.mem_cons.mp hb).resolve_left hne) hlive
  case stacked =>
    intro above b below hpool
    rw [pool_giveBack, List.cons_eq_append_iff] at hpool
    rcases hpool with ⟨rfl, hpool⟩ | ⟨above, rfl, hpool⟩
    · cases hpool
      exact ⟨[], ds, rfl, nofun, fun b hb => (not_waiting_nil hb).elim⟩
    · obtain ⟨new, old, rfl, hnew, habove⟩ := h.stacked above b below hpool
      refine ⟨_ :: new, old, rfl, List.forall_mem_cons.mpr ⟨by simp, hnew⟩, fun c hc => ?_⟩
      rcases waiting_cons.mp hc with hac | ⟨-, hc⟩
      · cases hac
        exact List.mem_cons_self
      · exact List.mem_cons_of_mem a (habove c hc)

theorem agrees_drain (h : Agrees limit ds m) : Agrees limit (.drain :: ds) m.drain where
  limit_eq := h.limit_eq
  within := h.within
  balance := h.balance
  live_iff a := by simpa [out_cons] using h.live_iff a
  pool_iff a := by simp [waiting_cons]
  pool_nodup := List.nodup_nil
  pool_not_live := nofun
  stacked above a below hpool := by simp at hpool

end Agrees

/-- Whatever was asked of a memory, its books agree with the ledger. -/
theorem Used.agrees (h : Used limit place ds m) : Agrees limit ds m := by
  induction h with
  | new => exact .new
  | @request ds m _ hheap ih =>
    cases hfull : m.limitReached with
    | true =>
      rw [(request_full hfull).1, (request_full hfull).2]
      exact ih.idle (.refl m) (by simp) (by simp) (by simp)
    | false =>
      rw [(request_served hfull).1, (request_served hfull).2]
      exact ih.agrees_handOut hheap hfull
  | @free ds m a _ ih =>
    by_cases ha : a ∈ m.live
    · rw [(free_live ha).1, (free_live ha).2]
      exact ih.agrees_giveBack ha
    · rw [(free_not_live ha).1, (free_not_live ha).2]
      exact ih.idle (.refl m) (by simp) (by simp) (by simp)
  | drain _ ih => exact ih.agrees_drain
  | write a i w _ ih => exact ih.idle (sameBooks_setEntry _ a i w) (by simp) (by simp) (by simp)

/-- A request is answered with an array that nobody has, zeroed. The heap is asked only if no array
waits. -/
structure Lends (ds : List Deal) (m : Memory) (a : PhysicalAddress) : Prop where
  answer : allocate?.outcome m = .ok (some a)
  not_live : a ∉ m.live
  zeroed : ∀ i, (allocate?.final m).entry a i = 0
  source : LastBack ds a ∧ (allocate?.final m).fresh = m.fresh ∨
    (∀ b, ¬ Waiting ds b) ∧ a = m.place m.fresh ∧ (allocate?.final m).fresh = m.fresh + 1

namespace Agrees

theorem limitReached_iff (h : Agrees limit ds m) :
    m.limitReached = true ↔ limit = some m.liveCount := by
  cases hlimit : limit with
  | none => simp [limitReached, h.limit_eq, hlimit]
  | some L =>
    have hle := h.within L hlimit
    rw [Memory.limitReached_iff (h.limit_eq.trans hlimit), Option.some.injEq]
    omega

theorem lends (h : Agrees limit ds m) (hheap : m.HeapSpare) (hroom : m.limitReached = false) :
    Lends ds m m.nextArray := by
  obtain ⟨hanswer, hfinal⟩ := request_served hroom
  refine ⟨hanswer, h.nextArray_not_live hheap hroom, fun i => ?_, ?_⟩
  · rw [hfinal, entry_handOut, if_pos rfl]
  · rw [hfinal]
    rcases m.nextArray_cases with ⟨hpool, hnext, hfresh⟩ | ⟨rest, hpool, hfresh⟩
    · refine Or.inr ⟨fun b hb => ?_, hnext, hfresh⟩
      have hmem := (h.pool_iff b).mpr hb
      simp [hpool] at hmem
    · obtain ⟨new, old, hds, hnew, habove⟩ := h.stacked [] m.nextArray rest hpool
      exact Or.inl ⟨⟨new, old, hds, hnew, fun b hb => List.not_mem_nil (habove b hb)⟩, hfresh⟩

end Agrees

/-- Whatever was asked of a memory, in whatever order: no more arrays are live than the limit
allows, they are those that were handed out and have not come back, and the counters differ by
their number. A request is refused exactly at the limit. Otherwise it gets an array that nobody
has, zeroed: the one that came back last and still waits, or a fresh one if none waits. An array
that is not live cannot be given back. -/
theorem Used.keeps_ledger (h : Used limit place ds m) :
    (∀ L, limit = some L → m.liveCount ≤ L) ∧
    (m.frees ≤ m.allocations ∧ m.allocations - m.frees = m.liveCount) ∧
    (m.pool.Nodup ∧ (∀ a ∈ m.pool, a ∉ m.live) ∧
      ∀ a, (a ∈ m.live ↔ Out ds a) ∧ (a ∈ m.pool ↔ Waiting ds a)) ∧
    (allocate?.outcome m = .ok none ↔ limit = some m.liveCount) ∧
    (m.HeapSpare → limit ≠ some m.liveCount → ∃ a, Lends ds m a) ∧
    ∀ a, a ∉ m.live →
      (Memory.free a).outcome m = .error (.abort .notLive) ∧ (Memory.free a).final m = m := by
  have hm := h.agrees
  have hbalance := hm.balance
  have hroom (hne : limit ≠ some m.liveCount) : m.limitReached = false :=
    Bool.eq_false_iff.mpr (mt hm.limitReached_iff.mp hne)
  have hrefused : allocate?.outcome m = .ok none ↔ limit = some m.liveCount := by
    constructor
    · intro hnone
      by_contra hne
      simp [request_served (hroom hne)] at hnone
    · exact fun hfull => (request_full (hm.limitReached_iff.mpr hfull)).1
  exact ⟨hm.within, by omega,
    ⟨hm.pool_nodup, hm.pool_not_live, fun a => ⟨hm.live_iff a, hm.pool_iff a⟩⟩, hrefused,
    fun hheap hne => ⟨_, hm.lends hheap (hroom hne)⟩, fun a ha => free_not_live ha⟩

/-- Memory for two arrays, both handed out and the second one written to. -/
def handedBoth : Memory :=
  (allocate?.final (allocate?.final (.startingAt 0x1000000 (some 2)))).setEntry ⟨0x1001000⟩
    ⟨7, by decide⟩ 0xff

def returnedBoth : Memory :=
  (free ⟨0x1001000⟩).final ((free ⟨0x1000000⟩).final handedBoth)

def ledgerHanded : List Deal :=
  [.write ⟨0x1001000⟩ ⟨7, by decide⟩ 0xff, .handed ⟨0x1001000⟩, .handed ⟨0x1000000⟩]

def ledgerReturned : List Deal :=
  .returned ⟨0x1001000⟩ :: .returned ⟨0x1000000⟩ :: ledgerHanded

theorem Used.handed (h : Used limit place ds m) (hheap : m.HeapSpare)
    (ha : allocate?.outcome m = .ok (some a)) :
    Used limit place (.handed a :: ds) (allocate?.final m) := by
  have hused := h.request hheap
  rwa [ha] at hused

theorem Used.returned (h : Used limit place ds m) (ha : (Memory.free a).outcome m = .ok ()) :
    Used limit place (.returned a :: ds) ((Memory.free a).final m) := by
  have hused := h.free a
  rwa [ha] at hused

theorem used_handedBoth :
    Used (some 2) (startingAt 0x1000000 none).place ledgerHanded handedBoth := by
  have hnew : Used (some 2) (startingAt 0x1000000 none).place []
      (startingAt 0x1000000 (some 2)) := .new
  have hfirst := hnew.handed (a := ⟨0x1000000⟩) (fun _ _ => by decide +kernel) (by decide +kernel)
  exact .write _ _ _ (hfirst.handed (fun _ _ => by decide +kernel) (by decide +kernel))

theorem used_returnedBoth :
    Used (some 2) (startingAt 0x1000000 none).place ledgerReturned returnedBoth :=
  (used_handedBoth.returned (by decide +kernel)).returned (by decide +kernel)

/-- While both arrays are out, a request is refused. When they are back, it gets the one that came
back last, and what was written to it is gone. The next request gets the other one. After a drain
neither waits, and the heap is asked. -/
theorem keeps_ledger_returnedBoth :
    allocate?.outcome handedBoth = .ok none ∧
    returnedBoth.entry ⟨0x1001000⟩ 7 = 0xff ∧
    (LastBack ledgerReturned ⟨0x1001000⟩ ∧ Waiting ledgerReturned ⟨0x1000000⟩) ∧
    (allocate?.outcome returnedBoth = .ok (some ⟨0x1001000⟩) ∧
      ∀ i, (allocate?.final returnedBoth).entry ⟨0x1001000⟩ i = 0) ∧
    (allocate?.outcome (allocate?.final returnedBoth) = .ok (some ⟨0x1000000⟩) ∧
      LastBack (.handed ⟨0x1001000⟩ :: ledgerReturned) ⟨0x1000000⟩) ∧
    (allocate?.outcome returnedBoth.drain = .ok (some ⟨0x1002000⟩) ∧
      ∀ a, ¬ Waiting (.drain :: ledgerReturned) a) ∧
    (free ⟨0x1001000⟩).outcome returnedBoth = .error (.abort .notLive) := by
  have hlends {ds : List Deal} {m : Memory} {a : PhysicalAddress}
      (hused : Used (some 2) (startingAt 0x1000000 none).place ds m) (hheap : m.HeapSpare)
      (hroom : some 2 ≠ some m.liveCount) (ha : allocate?.outcome m = .ok (some a)) :
      Lends ds m a := by
    obtain ⟨-, -, -, -, hlends, -⟩ := hused.keeps_ledger
    obtain ⟨b, hb⟩ := hlends hheap hroom
    obtain rfl : b = a := by simpa [hb.answer] using ha
    exact hb
  have hspare : returnedBoth.HeapSpare := fun _ hpool => absurd hpool (by decide +kernel)
  obtain ⟨-, -, -, hfull, -⟩ := used_handedBoth.keeps_ledger
  obtain ⟨-, -, ⟨-, -, hwaiting⟩, -, -, hnotLive⟩ := used_returnedBoth.keeps_ledger
  obtain ⟨-, -, ⟨-, -, hempty⟩, -⟩ := used_returnedBoth.drain.keeps_ledger
  have hsecond := hlends used_returnedBoth hspare (a := ⟨0x1001000⟩) (by decide +kernel)
    (by decide +kernel)
  have hfirst := hlends (used_returnedBoth.handed hspare hsecond.answer) (a := ⟨0x1000000⟩)
    (fun _ hpool => absurd hpool (by decide +kernel)) (by decide +kernel) (by decide +kernel)
  have hdrained := hlends used_returnedBoth.drain (a := ⟨0x1002000⟩)
    (fun _ _ => by decide +kernel) (by decide +kernel) (by decide +kernel)
  refine ⟨hfull.mpr (by decide +kernel), by decide +kernel,
    ⟨?_, (hwaiting _).2.mp (by decide +kernel)⟩, ⟨hsecond.answer, hsecond.zeroed⟩,
    ⟨hfirst.answer, ?_⟩, ⟨hdrained.answer, ?_⟩, (hnotLive _ (by decide +kernel)).1⟩
  · rcases hsecond.source with ⟨hlast, -⟩ | ⟨hnone, -⟩
    · exact hlast
    · exact absurd ((hwaiting _).2.mp (by decide +kernel)) (hnone ⟨0x1000000⟩)
  · rcases hfirst.source with ⟨hlast, -⟩ | ⟨-, hfresh, -⟩
    · exact hlast
    · exact absurd hfresh (by decide +kernel)
  · exact fun a ha => List.not_mem_nil ((hempty a).2.mpr ha)

end Memory

end Sandbox
