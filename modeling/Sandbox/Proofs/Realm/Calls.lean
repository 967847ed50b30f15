import Sandbox.Proofs.Realm.Reachable

/-! # Calls

The steps of a realm, each with the call that makes it. A call leaves the spaces alone that
it is not made on, and so does every run of such calls.
-/

namespace Sandbox

open AddressSpace Walk

inductive Call (A : Architecture)
  | create (owner : OwnerId)
  | createAbove (base : AddressSpace A) (start : VirtualAddress) (owner : OwnerId)
  | change (s : AddressSpace A) (ch : Change)
  | freeze (s : AddressSpace A)
  | drop (s : AddressSpace A)

variable {A : Architecture} {R R' R'' : Realm A} {c : Call A} {s t : AddressSpace A}
  {owner : OwnerId} {P P' : Realm A → Call A → Prop}

namespace Call

/-- A new space is younger than all others, and a shared space is left as it is. -/
def Allowed (R : Realm A) : Call A → Prop
  | create owner => ∀ t ∈ R.spaces, t.owner.number < owner.number
  | createAbove base _ owner => base ∈ R.spaces ∧ ∀ t ∈ R.spaces, t.owner.number < owner.number
  | change s _ | freeze s | drop s => s ∈ R.spaces ∧ Unshared R.spaces s

instance (S : List (AddressSpace A)) (s : AddressSpace A) : Decidable (Unshared S s) :=
  inferInstanceAs (Decidable (∀ t ∈ S, ∀ u ∈ t.upper, u.owner ≠ s.owner))

instance (R : Realm A) : (c : Call A) → Decidable (c.Allowed R)
  | create owner => inferInstanceAs (Decidable (∀ t ∈ R.spaces, t.owner.number < owner.number))
  | createAbove base _ owner => inferInstanceAs (Decidable
      (base ∈ R.spaces ∧ ∀ t ∈ R.spaces, t.owner.number < owner.number))
  | change s _ | freeze s | drop s =>
    inferInstanceAs (Decidable (s ∈ R.spaces ∧ Unshared R.spaces s))

def joined (S : List (AddressSpace A)) : Except Stop (AddressSpace A) → List (AddressSpace A)
  | .ok s => s :: S
  | .error _ => S

/-- The realm after the call, whichever way it ends. -/
def next (R : Realm A) : Call A → Realm A
  | create owner => ⟨(AddressSpace.create A owner).final R.memory,
      joined R.spaces ((AddressSpace.create A owner).outcome R.memory)⟩
  | createAbove base start owner => ⟨(base.createAbove start owner).final R.memory,
      joined R.spaces ((base.createAbove start owner).outcome R.memory)⟩
  | change s ch => ⟨(ch.run s).final R.memory, R.spaces⟩
  | freeze s => ⟨R.memory, R.spaces.map fun t => if t = s then t.freeze else t⟩
  | drop s => ⟨s.teardown.final R.memory, R.spaces.filter (· ≠ s)⟩

def On (owner : OwnerId) : Call A → Prop
  | change s _ | freeze s | drop s => s.owner = owner
  | create _ | createAbove _ _ _ => False

instance (owner : OwnerId) : (c : Call A) → Decidable (c.On owner)
  | change s _ | freeze s | drop s => inferInstanceAs (Decidable (s.owner = owner))
  | create _ | createAbove _ _ _ => inferInstanceAs (Decidable False)

def Drops (owner : OwnerId) : Call A → Prop
  | drop s => s.owner = owner
  | _ => False

theorem owner_unique {o o' : OwnerId} (h : c.On o) (h' : c.On o') : o = o' := by
  cases c with
  | create => exact h.elim
  | createAbove => exact h.elim
  | change s ch => exact h.symm.trans h'
  | freeze s => exact h.symm.trans h'
  | drop s => exact h.symm.trans h'

theorem Allowed.step (h : c.Allowed R) : Realm.Step R (c.next R) := by
  cases c with
  | create owner =>
    cases hout : (AddressSpace.create A owner).outcome R.memory with
    | ok s =>
      rw [next, hout, joined]
      exact .create h hout
    | error e =>
      rw [next, hout, joined]
      exact .createFailed h hout
  | createAbove base start owner =>
    cases hout : (base.createAbove start owner).outcome R.memory with
    | ok s =>
      rw [next, hout, joined]
      exact .createAbove h.1 h.2 hout
    | error e =>
      rw [next, hout, joined]
      exact .createAboveFailed h.1 h.2 hout
  | change s ch => exact .change h.1 h.2 ch
  | freeze s => exact .freeze h.1 h.2
  | drop s => exact .drop h.1 h.2

end Call

open Call (joined)

namespace Realm

theorem step_iff : Step R R' ↔ ∃ c : Call A, c.Allowed R ∧ R' = c.next R := by
  constructor
  · intro h
    cases h with
    | @create owner s hnew hs => exact ⟨.create owner, hnew, by rw [Call.next, hs, joined]⟩
    | @createFailed owner e hnew he => exact ⟨.create owner, hnew, by rw [Call.next, he, joined]⟩
    | @createAbove base s start owner hbase hnew hs =>
      exact ⟨.createAbove base start owner, ⟨hbase, hnew⟩, by rw [Call.next, hs, joined]⟩
    | @createAboveFailed base start owner e hbase hnew he =>
      exact ⟨.createAbove base start owner, ⟨hbase, hnew⟩, by rw [Call.next, he, joined]⟩
    | @change s hs hun ch => exact ⟨.change s ch, ⟨hs, hun⟩, rfl⟩
    | @freeze s hs hun => exact ⟨.freeze s, ⟨hs, hun⟩, rfl⟩
    | @drop s hs hun => exact ⟨.drop s, ⟨hs, hun⟩, rfl⟩
  · rintro ⟨c, h, rfl⟩
    exact h.step

/-- Some calls, each of them allowed and as `P` demands, lead from one realm to another. -/
inductive Leads (P : Realm A → Call A → Prop) (R : Realm A) : Realm A → Prop
  | refl : Leads P R R
  | call {R' : Realm A} {c : Call A} (h : Leads P R R') (hc : c.Allowed R') (hP : P R' c) :
      Leads P R (c.next R')

namespace Leads

theorem mono (h : Leads P R R') (hP : ∀ R c, P R c → P' R c) : Leads P' R R' := by
  induction h with
  | refl => exact .refl
  | call _ hc hp ih => exact .call ih hc (hP _ _ hp)

theorem trans (h : Leads P R R') (h' : Leads P R' R'') : Leads P R R'' := by
  induction h' with
  | refl => exact h
  | call _ hc hp ih => exact .call ih hc hp

theorem reachable (h : Leads P R R') (hR : Reachable R) : Reachable R' := by
  induction h with
  | refl => exact hR
  | call _ hc _ ih => exact .step ih hc.step

theorem before (h : Leads P R R') (hR : Reachable R) : R.memory.Before R'.memory := by
  induction h with
  | refl => exact .refl _
  | call h hc _ ih => exact ih.trans (hc.step.before (h.reachable hR).wellSplit)

theorem placed {base : Word} (h : Leads P (single A base) R) (ha : base.toNat % 4096 = 0)
    (hlt : base.toNat + 4096 * R.memory.fresh ≤ 2 ^ 48) : R.memory.Placed A.codec :=
  placed_startingAt ((before_single A base).trans (h.before (reachable_single A base))) ha hlt

end Leads

/-! ## Calls one after the other -/

def following (R : Realm A) (calls : List (Call A)) : Realm A :=
  calls.foldl (fun R c => c.next R) R

def Permits (P : Realm A → Call A → Prop) (R : Realm A) : List (Call A) → Prop
  | [] => True
  | c :: calls => (c.Allowed R ∧ P R c) ∧ (c.next R).Permits P calls

instance decidablePermits [∀ R c, Decidable (P R c)] : (R : Realm A) → (calls : List (Call A)) →
    Decidable (R.Permits P calls)
  | _, [] => inferInstanceAs (Decidable True)
  | R, c :: calls =>
    have : Decidable ((c.next R).Permits P calls) := decidablePermits _ calls
    inferInstanceAs (Decidable ((c.Allowed R ∧ P R c) ∧ (c.next R).Permits P calls))

theorem Permits.leads {calls : List (Call A)} (h : R.Permits P calls) :
    Leads P R (R.following calls) := by
  induction calls generalizing R with
  | nil => exact .refl
  | cons c calls ih => exact (Leads.call .refl h.1.1 h.1.2).trans (ih h.2)

/-! ## Calls on other spaces -/

theorem mem_freeze_of_owner_ne {S : List (AddressSpace A)} (ht : t ∈ S) (hne : t.owner ≠ s.owner) :
    t ∈ S.map fun t => if t = s then t.freeze else t := by
  refine List.mem_map.mpr ⟨t, ht, if_neg ?_⟩
  rintro rfl
  exact hne rfl

theorem mem_joined {S : List (AddressSpace A)} (ht : t ∈ S)
    (r : Except Stop (AddressSpace A)) : t ∈ joined S r := by
  cases r with
  | ok s => exact List.mem_cons_of_mem s ht
  | error e => exact ht

theorem made_cases {act : Action Memory (AddressSpace A)} (hi : Intact R.spaces R.memory)
    (htriple : Triple A.codec (fun m => m = R.memory ∧ Intact R.spaces m) act
      (fun s m => s.owner = owner ∧ Born R.spaces R.memory s m) (NotMade R.memory))
    (hp : (act.final R.memory).Placed A.codec) :
    (∃ s, joined R.spaces (act.outcome R.memory) = s :: R.spaces ∧
      Born R.spaces R.memory s (act.final R.memory)) ∨
    joined R.spaces (act.outcome R.memory) = R.spaces ∧ act.final R.memory = R.memory := by
  cases hout : act.outcome R.memory with
  | ok s => exact Or.inl ⟨s, rfl, (htriple.of_ok ⟨rfl, hi⟩ hp hout).2⟩
  | error e => exact Or.inr ⟨rfl, (htriple.of_error ⟨rfl, hi⟩ hp hout).1⟩

theorem Sound.untouched (hR : Sound R) (hc : c.Allowed R)
    (hp : (c.next R).memory.Placed A.codec) (ht : t ∈ R.spaces) (hn : ¬ c.On t.owner) :
    t ∈ (c.next R).spaces ∧ t.Untouched R.memory (c.next R).memory := by
  have hi := hR.intact
  have hne {s : AddressSpace A} (hs : ¬ s.owner = t.owner) : t ≠ s := by
    rintro rfl
    exact hs rfl
  cases c with
  | create owner =>
    refine ⟨mem_joined ht _, ?_⟩
    obtain ⟨s, -, hborn⟩ | ⟨-, hsame⟩ := made_cases hi (create_triple hc R.memory) hp
    · exact hborn.untouched hi ht
    · exact hsame ▸ .refl t R.memory
  | createAbove base start owner =>
    refine ⟨mem_joined ht _, ?_⟩
    obtain ⟨s, -, hborn⟩ | ⟨-, hsame⟩ :=
      made_cases hi (createAbove_triple hc.1 hc.2 start R.memory) hp
    · exact hborn.untouched hi ht
    · exact hsame ▸ .refl t R.memory
  | change s ch =>
    have htriple := ch.run_triple hc.1 (hi.split s hc.1) hc.2 R.memory
    have hkept := (htriple.error fun _ _ hk => hk.1).of_end ⟨rfl, hi⟩ hp
    exact ⟨ht, hkept.framed.others t ht (hne hn)⟩
  | freeze s => exact ⟨mem_freeze_of_owner_ne ht fun h => hn h.symm, .refl t R.memory⟩
  | drop s =>
    have hmem := mem_spaces_drop.mpr ⟨ht, hne hn⟩
    have htriple := teardown_triple hc.1 (hi.split s hc.1) hc.2 (fun _ => mem_spaces_drop) R.memory
    exact ⟨hmem, ((htriple.error fun _ _ hf => hf.elim).of_end
      ⟨rfl, hi, hR.last s hc.1⟩ hp).2.1 t hmem⟩

def Spares (owner : OwnerId) (_ : Realm A) (c : Call A) : Prop :=
  ¬ c.On owner

instance (owner : OwnerId) (R : Realm A) (c : Call A) : Decidable (Spares owner R c) :=
  inferInstanceAs (Decidable (¬ c.On owner))

/-- Calls that spare a space leave it where it is, with all that it shows. -/
theorem Leads.untouched (h : Leads (Spares t.owner) R R') (hR : Reachable R)
    (hp : R'.memory.Placed A.codec) (ht : t ∈ R.spaces) :
    t ∈ R'.spaces ∧ t.Untouched R.memory R'.memory := by
  induction h with
  | refl => exact ⟨ht, .refl t R.memory⟩
  | @call R' c h hc hn ih =>
    have hp' := hp.of_before (hc.step.before (h.reachable hR).wellSplit)
    obtain ⟨hmem, hsame⟩ := ih hp'
    obtain ⟨hmem', hsame'⟩ := ((h.reachable hR).sound hp').untouched hc hp hmem hn
    exact ⟨hmem', hsame.trans hsame'⟩

theorem mem_of_mem_next (hon : c.On owner) (ht : t ∈ (c.next R).spaces) (hne : t.owner ≠ owner) :
    t ∈ R.spaces := by
  cases c with
  | create => exact hon.elim
  | createAbove => exact hon.elim
  | change s ch => exact ht
  | freeze s =>
    obtain ⟨t', ht', heq⟩ := List.mem_map.mp ht
    split at heq
    next h =>
      subst h
      exact absurd (heq ▸ hon) hne
    next => exact heq ▸ ht'
  | drop s => exact (mem_spaces_drop.mp ht).1

/-- Until it is dropped, the space of an owner stays, though it may be frozen. -/
theorem exists_mem_next (hc : c.Allowed R) (hn : ¬ c.Drops s.owner) {f : Bool}
    (hs : { s with frozen := f } ∈ R.spaces) :
    ∃ f : Bool, { s with frozen := f } ∈ (c.next R).spaces := by
  cases c with
  | create => exact ⟨f, mem_joined hs _⟩
  | createAbove => exact ⟨f, mem_joined hs _⟩
  | change => exact ⟨f, hs⟩
  | freeze t =>
    by_cases ht : { s with frozen := f } = t
    · exact ⟨true, List.mem_map.mpr ⟨_, hs, by rw [if_pos ht]; rfl⟩⟩
    · exact ⟨f, List.mem_map.mpr ⟨_, hs, if_neg ht⟩⟩
  | drop t =>
    refine ⟨f, mem_spaces_drop.mpr ⟨hs, ?_⟩⟩
    rintro rfl
    exact hn rfl

end Realm

end Sandbox
