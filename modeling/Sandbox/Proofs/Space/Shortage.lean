import Mathlib.Data.Set.Finite.List
import Sandbox.Proofs.Space.Census
import Sandbox.Proofs.Walk.Accounts

/-! # Mapping in want of memory

A mapping needs one array for each path into its range that the space lacks. If there is room
for as many it returns, and if not it stops at a page, with the pages before it mapped and no
array lost.
-/

namespace Sandbox

open AddressSpace Walk

variable {A : Architecture} {S : List (AddressSpace A)} {s : AddressSpace A} {m m₀ : Memory}
  {start stop : Word} {o : MapOptions} {new : List (List (Fin 512))}

def Memory.Room (m : Memory) (n : Nat) : Prop :=
  n = 0 ∨ ∀ L, m.limit = some L → m.liveCount + n ≤ L

namespace AddressSpace

/-- Paths to arrays on the way into a range that the space lacks. -/
def lacking (s : AddressSpace A) (m : Memory) (start stop : Word) : Set (List (Fin 512)) :=
  {q | Passed start stop q ∧ q ∉ s.ownPaths m}

theorem finite_lacking (s : AddressSpace A) (m : Memory) (start stop : Word) :
    (s.lacking m start stop).Finite := by
  apply (List.finite_length_le (Fin 512) 3).subset
  rintro _ ⟨⟨l, z, -, -, rfl⟩, -⟩
  exact (Level.length_path l z).le.trans l.depth_le

end AddressSpace

namespace Walk.Gained

theorem subset_lacking (h : Gained s start stop m₀ m new) :
    {q | q ∈ new} ⊆ s.lacking m₀ start stop :=
  fun q hq => ⟨h.passed q hq, ((h.mem_iff q).mp hq).2⟩

theorem length_eq_ncard (h : Gained s start stop m₀ m new) :
    new.length = {q | q ∈ new}.ncard := by
  rw [← List.coe_toFinset, Set.ncard_coe_finset, List.toFinset_card_of_nodup h.nodup]

theorem liveCount_eq (h : Gained s start stop m₀ m new) (hacc : Memory.Accounted m₀ m) :
    m.liveCount = m₀.liveCount + new.length := by
  have hbalance := hacc.balance
  have hallocations := h.allocations
  have hfrees := h.frees
  omega

theorem room (h : Gained s start stop m₀ m new) (hacc : Memory.Accounted m₀ m)
    (hall : ∀ q, q ∈ new ↔ q ∈ s.lacking m₀ start stop) :
    m₀.Room (s.lacking m₀ start stop).ncard := by
  have hset : {q | q ∈ new} = s.lacking m₀ start stop := Set.ext hall
  have hcount := h.liveCount_eq hacc
  rw [← hset, ← h.length_eq_ncard]
  rcases hacc.within with hle | hle
  · exact Or.inl (by omega)
  · exact Or.inr fun L hL => hcount ▸ hle L (hacc.limit.trans hL)

theorem not_room (h : Gained s start stop m₀ m new) (hacc : Memory.Accounted m₀ m)
    (hstarved : Starved s start stop (.refusal .outOfMemory) m) :
    ¬ m₀.Room (s.lacking m₀ start stop).ncard := by
  obtain ⟨hlimit, q, hpass, hmissing⟩ := hstarved rfl
  have hcount := h.liveCount_eq hacc
  have hold : ¬ ∃ b, s.Owns m₀ q b := fun ⟨b, ho⟩ => hmissing ⟨b, h.owns q b ho⟩
  have hnew : q ∉ new := fun hq => hmissing ((h.mem_iff q).mp hq).1
  have hlt : new.length < (s.lacking m₀ start stop).ncard := by
    rw [h.length_eq_ncard]
    exact Set.ncard_lt_ncard ⟨h.subset_lacking, fun hsub => hnew (hsub ⟨hpass, hold⟩)⟩
      (finite_lacking s m₀ start stop)
  rintro (h0 | hroom)
  · omega
  · cases hL : m.limit with
    | none =>
      rw [Memory.limitReached, hL] at hlimit
      cases hlimit
    | some L =>
      have hle := (Memory.limitReached_iff hL).mp hlimit
      have := hroom L (hacc.limit.symm.trans hL)
      omega

end Walk.Gained

namespace AddressSpace

/-- What a mapping leaves behind that ran out of memory at the page at `x`. -/
structure CutShort (S : List (AddressSpace A)) (s : AddressSpace A) (start stop : Word)
    (o : MapOptions) (distance x : Word) (m₀ m : Memory) : Prop where
  intact : Intact S m
  framed : Framed S s start stop m₀ m
  inside : Inside start stop x
  mapped : MappedUpTo A.codec o distance start (s.leafAt m₀) x.toNat (s.leafAt m)
  unmapped : s.leafAt m x = 0
  gained : ∃ new, Gained s start stop m₀ m new

def Mappable (c : EntryCodec) (distance start stop : Word) : Prop :=
  ∀ y, Inside start stop y →
    (PhysicalAddress.mk (y + distance)).isPageAligned = true ∧ c.Fits ⟨y + distance⟩

/-- Only a lack of memory stops a walk that maps frames that can be mapped. -/
theorem MapFailed.outOfMemory {distance : Word} {f₀ f : Word → Word} {e : Stop}
    (h : MapFailed A.codec o distance start stop f₀ e f) (ho : o.access.any = true)
    (hfit : Mappable A.codec distance start stop) : e = .refusal .outOfMemory ∧
      ∃ x, Inside start stop x ∧ MappedUpTo A.codec o distance start f₀ x.toNat f ∧ f x = 0 := by
  obtain ⟨x, hx, hmap, ⟨rfl, h0⟩ | ⟨b, -, hb⟩⟩ := h
  · exact ⟨rfl, x, hx, hmap, h0⟩
  · obtain ⟨w, hw, -⟩ := leafWith_of_fits ho (hfit x hx).1 (hfit x hx).2
    rw [hb] at hw
    cases hw

/-- A walk that maps a range returns if there is room for what is lacking, and is cut short
otherwise. -/
theorem extend_cases (hi : Intact S m) (hs : s ∈ S) (he : Editable S s start stop)
    (ha : Accepted start stop) (ho : o.access.any = true) {physical : PhysicalAddress}
    (hfit : Mappable A.codec (physical.word - start) start stop)
    {act : Action Memory Bool}
    (hact : act = s.change (Visitor.map A.codec start physical o) start stop false)
    (hp : (act.final m).Placed A.codec) :
    (m.Room (s.lacking m start stop).ncard ∧ ∃ changed, act.outcome m = .ok changed) ∨
      (¬ m.Room (s.lacking m start stop).ncard ∧ act.outcome m = .error (.refusal .outOfMemory) ∧
        ∃ x, CutShort S s start stop o (physical.word - start) x m (act.final m)) := by
  subst hact
  have htriple := extend_triple hs he ha ho physical m
  have hacc := (Action.Accounts.range (c := A.codec)
    ⟨A.codec, Visitor.map A.codec start physical o, true, stop⟩ s.root start false).final
      hi.books hp
  cases hout : (s.change (Visitor.map A.codec start physical o) start stop false).outcome m with
  | ok changed =>
    obtain ⟨-, -, hmap, new, hg⟩ := htriple.of_ok ⟨rfl, hi⟩ hp hout
    exact Or.inl ⟨hg.room hacc (hg.mem_iff_passed ha he hmap), changed, rfl⟩
  | error e =>
    obtain ⟨hi', hf, hfail, ⟨new, hg⟩, hstarved⟩ := htriple.of_error ⟨rfl, hi⟩ hp hout
    obtain ⟨rfl, x, hx, hmap, h0⟩ := hfail.outOfMemory ho hfit
    exact Or.inr ⟨hg.not_room hacc hstarved, rfl, x, hi', hf, hx, hmap, h0, new, hg⟩

end AddressSpace

end Sandbox
