import Sandbox.Proofs.Realm.Reachable
import Sandbox.Proofs.Space.Inspect

/-! # Structure of a realm

In every reachable realm the live arrays form disjoint trees, one for each space, whose
entries are what their level asks for. No call meets an entry that it does not expect.
-/

namespace Sandbox

open AddressSpace Walk

namespace Realm

variable {A : Architecture} {R : Realm A} {a b : PhysicalAddress} {i : Fin 512}

def Copied (R : Realm A) (a : PhysicalAddress) (i : Fin 512) : Prop :=
  ∃ s ∈ R.spaces, a = s.root ∧ ¬ s.OwnsSlot i

def Points (R : Realm A) (a : PhysicalAddress) (i : Fin 512) (b : PhysicalAddress) : Prop :=
  a ∈ R.memory.live ∧ A.codec.child? (R.memory.entry a i) = some b

/-- The live arrays are disjoint trees of well-formed entries. -/
structure WellFormed (R : Realm A) : Prop where
  /-- Above the leaves, valid entries lead to live arrays. -/
  upper : ∀ s ∈ R.spaces, ∀ p a, p.length < 3 → s.arrayAt R.memory p = some a → ∀ i,
    A.codec.isValid (R.memory.entry a i) = true →
      A.codec.isIntermediate (R.memory.entry a i) = true ∧
      A.codec.address (R.memory.entry a i) ∈ R.memory.live
  leaf : ∀ s ∈ R.spaces, ∀ p a, p.length = 3 → s.arrayAt R.memory p = some a → ∀ i,
    A.codec.isValid (R.memory.entry a i) = true → A.codec.IsLeaf (R.memory.entry a i)
  invalid : ∀ s ∈ R.spaces, ∀ p a, p.length ≤ 3 → s.arrayAt R.memory p = some a → ∀ i,
    A.codec.isValid (R.memory.entry a i) = false → R.memory.entry a i = 0
  /-- Copied slots aside, one entry points at each array that is not a root. -/
  pointed_once : ∀ b ∈ R.memory.live, (∀ s ∈ R.spaces, b ≠ s.root) →
    ∃ a i, R.Points a i b ∧ ¬ R.Copied a i ∧
      ∀ a' i', R.Points a' i' b → ¬ R.Copied a' i' → a' = a ∧ i' = i
  root_unpointed : ∀ s ∈ R.spaces, ∀ a i, ¬ R.Points a i s.root
  live_iff : ∀ a, a ∈ R.memory.live ↔ ∃ s ∈ R.spaces, ∃ p, s.Owns R.memory p a
  disjoint : ∀ s ∈ R.spaces, ∀ t ∈ R.spaces, ∀ p q a, s.Owns R.memory p a →
    t.Owns R.memory q a → s = t ∧ p = q

/-- No call on a space is stopped by a broken tree, and every teardown returns. -/
structure Unbroken (R : Realm A) : Prop where
  change : ∀ s ∈ R.spaces, Unshared R.spaces s → ∀ ch : Change,
    ((ch.run s).final R.memory).Placed A.codec →
    ∀ e, (ch.run s).outcome R.memory = .error e → e.Benign
  lookup : ∀ s ∈ R.spaces, ∀ a, (s.lookup a).Harmless R.memory
  lookupFirst : ∀ s ∈ R.spaces, ∀ a, (s.lookupFirst a).Harmless R.memory
  isEmpty : ∀ s ∈ R.spaces, ∀ a length, (s.isEmpty a length).Harmless R.memory
  teardown : ∀ s ∈ R.spaces, Unshared R.spaces s →
    (s.teardown.final R.memory).Placed A.codec → s.teardown.outcome R.memory = .ok ()

namespace Sound

theorem arrayAt_of_points (h : Sound R) (hp : R.Points a i b) : ∃ s ∈ R.spaces, ∃ p,
    s.Owns R.memory p a ∧ p.length < 3 ∧ s.arrayAt R.memory (i :: p) = some b := by
  obtain ⟨hlive, hchild⟩ := hp
  obtain ⟨s, hs, p, ho⟩ := (h.intact.live_iff a).mp hlive
  refine ⟨s, hs, p, ho, ?_, ?_⟩
  · refine Nat.lt_of_le_of_ne ho.length_le fun hlen => ?_
    rcases h.intact.leaves s hs p a ho hlen i with h0 | ⟨f, o, hl⟩
    · rw [h0, A.lawful.child?_zero] at hchild
      cases hchild
    · rw [EntryCodec.child?, EntryCodec.isIntermediate, hl.isTable A.lawful, Bool.and_false] at hchild
      cases hchild
  · rw [arrayAt_cons, ho.arrayAt_eq, Option.bind_some, hchild]

/-- Unless it was copied, such an entry belongs to the owner of the array it points at. -/
theorem owns_of_points (h : Sound R) (hp : R.Points a i b) (hc : ¬ R.Copied a i) :
    ∃ s ∈ R.spaces, ∃ p, s.Owns R.memory p a ∧ s.Owns R.memory (i :: p) b := by
  obtain ⟨s, hs, p, ho, hlen, harr⟩ := h.arrayAt_of_points hp
  refine ⟨s, hs, p, ho, ?_, by simp; omega, harr⟩
  by_cases hnil : p = []
  · subst hnil
    have hroot : s.root = a := Option.some.inj ho.arrayAt_eq
    rw [ownsPath_singleton]
    by_contra hslot
    exact hc ⟨s, hs, hroot.symm, hslot⟩
  · exact (ownsPath_cons hnil).mpr ho.ownsPath

theorem pointed_once (h : Sound R) (hb : b ∈ R.memory.live) (hroot : ∀ s ∈ R.spaces, b ≠ s.root) :
    ∃ a i, R.Points a i b ∧ ¬ R.Copied a i ∧
      ∀ a' i', R.Points a' i' b → ¬ R.Copied a' i' → a' = a ∧ i' = i := by
  obtain ⟨s, hs, p, ho⟩ := (h.intact.live_iff b).mp hb
  rcases p with _ | ⟨i, p⟩
  · exact absurd (Option.some.inj ho.arrayAt_eq).symm (hroot s hs)
  · obtain ⟨a, ha, hchild⟩ := arrayAt_cons_eq_some.mp ho.arrayAt_eq
    have hlen := ho.length_le
    rw [List.length_cons] at hlen
    have hown : s.Owns R.memory p a :=
      ⟨ownsPath_of_suffix ho.ownsPath (List.suffix_cons i p), by omega, ha⟩
    refine ⟨a, i, ⟨h.intact.mem_live hs hown, hchild⟩, ?_, ?_⟩
    · rintro ⟨t, ht, rfl, hslot⟩
      obtain ⟨rfl, rfl⟩ := h.intact.eq_nil_of_root hs ht hown
      exact hslot (ownsPath_singleton.mp ho.ownsPath)
    · intro a' i' hp' hc'
      obtain ⟨t, ht, q, hq, hb'⟩ := h.owns_of_points hp' hc'
      obtain ⟨rfl, hpath⟩ := h.intact.unique t ht s hs _ _ b hb' ho
      obtain ⟨rfl, rfl⟩ := List.cons.inj hpath
      exact ⟨Option.some.inj (hq.arrayAt_eq.symm.trans ha), rfl⟩

theorem root_unpointed (h : Sound R) {s : AddressSpace A} (hs : s ∈ R.spaces)
    (a : PhysicalAddress) (i : Fin 512) : ¬ R.Points a i s.root := by
  intro hp
  obtain ⟨t, ht, p, -, hlen, harr⟩ := h.arrayAt_of_points hp
  obtain ⟨r, hr, hown, -⟩ := h.intact.owns_of_arrayAt ht (by simp; omega) harr
  obtain ⟨-, hnil⟩ := h.intact.eq_nil_of_root hr hs hown
  cases hnil

theorem wellFormed (h : Sound R) : R.WellFormed where
  upper := by
    intro s hs p a hlen ha i hv
    rcases h.intact.pointers_of_arrayAt hs hlen ha i with h0 | ⟨b, hp⟩
    · rw [h0, A.lawful.isValid_zero] at hv
      cases hv
    · refine ⟨hp.isIntermediate A.lawful, ?_⟩
      rw [hp.address_eq A.lawful]
      apply h.intact.mem_live_of_arrayAt hs (p := i :: p) (by simp; omega)
      rw [arrayAt_cons, ha, Option.bind_some, hp.child?_eq A.lawful]
  leaf := by
    intro s hs p a hlen ha i hv
    refine (h.intact.leaves_of_arrayAt hs hlen ha i).resolve_left fun h0 => ?_
    rw [h0, A.lawful.isValid_zero] at hv
    cases hv
  invalid := by
    intro s hs p a hlen ha i hv
    by_cases hlt : p.length < 3
    · refine (h.intact.pointers_of_arrayAt hs hlt ha i).resolve_right ?_
      rintro ⟨b, hp⟩
      rw [hp.isValid A.lawful] at hv
      cases hv
    · refine (h.intact.leaves_of_arrayAt hs (by omega) ha i).resolve_right ?_
      rintro ⟨b, o, hl⟩
      rw [hl.isValid A.lawful] at hv
      cases hv
  pointed_once _ hb hroot := h.pointed_once hb hroot
  root_unpointed _ hs := h.root_unpointed hs
  live_iff := h.intact.live_iff
  disjoint := h.intact.unique

theorem unbroken (h : Sound R) (hp : R.memory.Placed A.codec) : R.Unbroken where
  change s hs hun ch hend _ he :=
    ((ch.run_triple hs (h.intact.split s hs) hun R.memory).of_error ⟨rfl, h.intact⟩ hend he).2
  lookup _ hs := lookup_harmless h.intact hs hp
  lookupFirst _ hs := lookupFirst_harmless h.intact hs hp
  isEmpty _ hs := isEmpty_harmless h.intact hs hp
  teardown s hs hun hend := by
    have htriple := teardown_triple hs (h.intact.split s hs) hun (fun _ => mem_spaces_drop)
      R.memory
    cases hout : s.teardown.outcome R.memory with
    | ok u => rfl
    | error e => exact (htriple.of_error ⟨rfl, h.intact, h.last s hs⟩ hend hout).elim

end Sound

/-- The live arrays of a reachable realm are the disjoint trees of its spaces, and no call
meets an entry that does not fit. -/
theorem Reachable.wellFormed_and_unbroken (h : Reachable R) (hp : R.memory.Placed A.codec) :
    R.WellFormed ∧ R.Unbroken :=
  ⟨(h.sound hp).wellFormed, (h.sound hp).unbroken hp⟩

/-- A realm with one space, after two pages were mapped into it. -/
theorem wellFormed_and_unbroken_mapped :
    WellFormed ⟨((firstSpace .x86_64 0x1000000).map ⟨0x1ff000⟩ 0x2000 (.forUser .readWrite)
      ⟨0x80000000⟩).final (single .x86_64 0x1000000).memory, [firstSpace .x86_64 0x1000000]⟩ ∧
    Unbroken ⟨((firstSpace .x86_64 0x1000000).map ⟨0x1ff000⟩ 0x2000 (.forUser .readWrite)
      ⟨0x80000000⟩).final (single .x86_64 0x1000000).memory, [firstSpace .x86_64 0x1000000]⟩ := by
  have hreach := reachable_single .x86_64 0x1000000
  have hstep := Step.change (R := single .x86_64 0x1000000) List.mem_cons_self
    (unshared_single .x86_64 0x1000000)
    (.map ⟨0x1ff000⟩ 0x2000 (.forUser .readWrite) ⟨0x80000000⟩)
  have hbefore := (before_single .x86_64 0x1000000).trans (hstep.before hreach.wellSplit)
  exact (hreach.step hstep).wellFormed_and_unbroken
    (placed_startingAt hbefore (by decide) (by decide +kernel))

end Realm

end Sandbox
