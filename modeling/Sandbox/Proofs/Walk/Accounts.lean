import Sandbox.Proofs.Walk.Reads

/-! # Accounts

The allocator counts what it hands out and what it takes back. Whatever is done to a memory,
what was handed out and not given back is live, and the arrays that are live never become more
than the limit.
-/

namespace Sandbox

open Sandbox.Action (Closed)

namespace Memory

variable {m m' m₀ : Memory} {a : PhysicalAddress} {L : Nat}

theorem liveCount_handOut (h : m.nextArray ∉ m.live) : m.handOut.liveCount = m.liveCount + 1 := by
  have hfresh : ¬ m.live.contains m.nextArray = true :=
    fun hc => h (Std.ExtTreeSet.mem_iff_contains.mpr hc)
  change (m.live.insert m.nextArray).size = m.live.size + 1
  rw [Std.ExtTreeSet.size_insert, if_neg hfresh]

theorem liveCount_giveBack (h : a ∈ m.live) : (m.giveBack a).liveCount + 1 = m.liveCount := by
  have hpos : m.live.size ≠ 0 := by
    intro h0
    rw [← Std.ExtTreeSet.length_toList, List.length_eq_zero_iff] at h0
    have hmem := Std.ExtTreeSet.mem_toList.mpr h
    rw [h0] at hmem
    cases hmem
  change (m.live.erase a).size + 1 = m.live.size
  rw [Std.ExtTreeSet.size_erase, if_pos (Std.ExtTreeSet.mem_iff_contains.mp h)]
  omega

theorem limitReached_iff (h : m.limit = some L) : m.limitReached = true ↔ L ≤ m.liveCount := by
  rw [limitReached, h, Option.any_some, decide_eq_true_eq]

theorem lt_of_limitReached_eq_false (h : m.limitReached = false) (hL : m.limit = some L) :
    m.liveCount < L := by
  rw [← Nat.not_le, ← limitReached_iff hL, h]
  exact Bool.false_ne_true

structure Accounted (m₀ m : Memory) : Prop where
  books : m.Books
  limit : m.limit = m₀.limit
  /-- Arrays that were handed out since are live or were given back. -/
  balance : m.liveCount + m.frees + m₀.allocations = m₀.liveCount + m₀.frees + m.allocations
  within : m.liveCount ≤ m₀.liveCount ∨ ∀ L, m.limit = some L → m.liveCount ≤ L

namespace Accounted

theorem refl (h : m.Books) : Accounted m m := ⟨h, rfl, rfl, Or.inl (Nat.le_refl _)⟩

theorem trans (h : Accounted m₀ m) (h' : Accounted m m') : Accounted m₀ m' := by
  have hb := h.balance
  have hb' := h'.balance
  refine ⟨h'.books, h'.limit.trans h.limit, by omega, ?_⟩
  rcases h'.within with hle' | hle'
  · rcases h.within with hle | hle
    · exact Or.inl (hle'.trans hle)
    · exact Or.inr fun L hL => hle'.trans (hle L (h'.limit.symm.trans hL))
  · exact Or.inr hle'

theorem sameBooks (h : Accounted m₀ m) (hs : SameBooks m m') : Accounted m₀ m' := by
  have hcount : m'.liveCount = m.liveCount := congrArg Std.ExtTreeSet.size hs.live
  refine ⟨h.books.congr hs, hs.limit.trans h.limit, ?_, ?_⟩
  · rw [hcount, hs.frees, hs.allocations, h.balance]
  · rw [hcount, hs.limit]
    exact h.within

theorem handOut (h : Accounted m₀ m) (hnew : m.nextArray ∉ m.live)
    (hroom : m.limitReached = false) : Accounted m₀ m.handOut := by
  have hcount := liveCount_handOut hnew
  have hfrees : m.handOut.frees = m.frees := rfl
  have hallocations : m.handOut.allocations = m.allocations + 1 := rfl
  have hbalance := h.balance
  refine ⟨h.books.handOut, h.limit, by omega, Or.inr fun L hL => ?_⟩
  have hlt := lt_of_limitReached_eq_false hroom (L := L) hL
  omega

theorem giveBack (h : Accounted m₀ m) (ha : a ∈ m.live) : Accounted m₀ (m.giveBack a) := by
  have hcount := liveCount_giveBack ha
  have hfrees : (m.giveBack a).frees = m.frees + 1 := rfl
  have hallocations : (m.giveBack a).allocations = m.allocations := rfl
  have hbalance := h.balance
  refine ⟨h.books.giveBack ha, h.limit, by omega, ?_⟩
  rcases h.within with hle | hle
  · exact Or.inl (by omega)
  · refine Or.inr fun L hL => ?_
    have := hle L hL
    omega

end Accounted

end Memory

structure Action.Accounts {β : Type} (c : EntryCodec) (act : Action Memory β) : Prop where
  triple : ∀ m₀, Triple c (Memory.Accounted m₀) act (fun _ => Memory.Accounted m₀)
    fun _ => Memory.Accounted m₀

namespace Action.Accounts

variable {β : Type} {c : EntryCodec} {act : Action Memory β} {m : Memory}

theorem final (h : act.Accounts c) (hm : m.Books) (hp : (act.final m).Placed c) :
    Memory.Accounted m (act.final m) :=
  (h.triple m).of_end (.refl hm) hp

theorem closed (c : EntryCodec) : Closed fun _ act => Accounts c act where
  pure _ := ⟨fun _ => .pure fun _ h => h⟩
  throw _ := ⟨fun _ => .throw fun _ h => h⟩
  read := ⟨fun _ => Triple.read.post fun _ _ h => h.2⟩
  log _ := ⟨fun _ => .log⟩
  bind h hf := ⟨fun m₀ => (h.triple m₀).bind fun x => (hf x).triple m₀⟩

theorem edit {g : Memory → Memory} (h : ∀ m, Memory.SameBooks m (g m)) :
    (Action.update g).Accounts c :=
  ⟨fun _ => .update (fun m => (h m).before) fun m _ hm => hm.sameBooks (h m)⟩

theorem store (a : PhysicalAddress) (i : Fin 512) (w : Word) : (Memory.store a i w).Accounts c :=
  edit fun m => m.sameBooks_setEntry a i w

theorem allocate : Memory.allocate.Accounts c := by
  constructor
  intro m₀
  apply (Triple.allocate (E := fun _ => Memory.Accounted m₀) fun _ hm _ => hm).post
  rintro b m' ⟨m, hm, hroom, -, rfl, hplaced⟩
  exact hm.handOut (hm.books.nextArray_spec hplaced).1 hroom

theorem free (a : PhysicalAddress) : (Memory.free a).Accounts c := by
  constructor
  intro m₀
  apply Triple.bind Triple.read
  intro m'
  apply Triple.ite
  · intro hlive
    apply Triple.update fun m => m.before_giveBack a
    rintro m - ⟨rfl, hm⟩
    exact hm.giveBack (Std.ExtTreeSet.mem_iff_contains.mpr hlive)
  · exact fun _ => .throw fun m hm => hm.2

theorem range {α : Type} (plan : Walk.Plan α) (root : PhysicalAddress) (start : Word) (r : α) :
    (Walk.range plan root start r).Accounts c :=
  Walk.Plan.Admits.range (T := fun _ act => Accounts c act)
    ⟨closed c, fun _ _ a i => store a i _, fun _ => ⟨allocate, store⟩,
      fun _ => ⟨fun a i => store a i 0, free⟩⟩ root start r

end Action.Accounts

end Sandbox
