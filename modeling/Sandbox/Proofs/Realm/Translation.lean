import Sandbox.Proofs.Entry.Grants
import Sandbox.Proofs.Realm.Economy

/-! # Lookups and hardware agree

A lookup reads nothing but the leaf of a page, while hardware puts together what it reads in all
four arrays on the way there. In reachable memory both come to the same: where the words on the
path grant a frame, it is what the lookup answers, and where they grant nothing, it answers with
nothing.
-/

namespace Sandbox

open AddressSpace Walk

variable {A : Architecture} {S : List (AddressSpace A)} {R : Realm A} {s : AddressSpace A}
  {m : Memory} {x : Word} {l child : Level} {a : PhysicalAddress}

/-- The words that hardware reads on the way to a page, whatever they are. -/
def AddressSpace.pathWords (s : AddressSpace A) (m : Memory) (x : Word) : PathWords :=
  let top := m.entry s.root (Level.pgd.index x)
  let upper := m.entry (A.target top) (Level.pud.index x)
  let middle := m.entry (A.target upper) (Level.pmd.index x)
  ⟨top, upper, middle, m.entry (A.target middle) (Level.pte.index x)⟩

namespace Intact

variable (h : Intact S m) (hs : s ∈ S)

include h hs

theorem pointer_cases (hb : Level.Below child l) (ha : s.arrayAt m (l.path x) = some a) :
    (m.entry a (l.index x) = 0 ∧ s.leafAt m x = 0) ∨
      (∃ b, A.codec.IsPointer (m.entry a (l.index x)) b) ∧
        s.arrayAt m (child.path x) = some (A.target (m.entry a (l.index x))) := by
  rcases h.pointers_of_arrayAt hs (hb.length_path_lt x) ha (l.index x) with hzero | ⟨b, hp⟩
  · left
    refine ⟨hzero, leafAt_eq_zero h hs ha ?_⟩
    rw [hzero, A.lawful.isValid_zero]
  · right
    refine ⟨⟨b, hp⟩, ?_⟩
    rw [hb.path_eq, arrayAt_cons, ha, Option.bind_some, hp.child?_eq A.lawful, A.target_eq,
      hp.address_eq A.lawful]

/-- Either the path breaks off and the page has no leaf, or it leads to the leaf. -/
theorem pathWords_cases (x : Word) :
    (0 ∈ (s.pathWords m x).tables ∧ s.leafAt m x = 0) ∨
      (∀ w ∈ (s.pathWords m x).tables, ∃ b, A.codec.IsPointer w b) ∧
        (s.pathWords m x).leaf = s.leafAt m x := by
  rw [PathWords.mem_tables, PathWords.forall_mem_tables]
  rcases h.pointer_cases hs (x := x) .pud (s.arrayAt_nil m) with ⟨hzero, hleaf⟩ | ⟨hp, ha⟩
  · exact Or.inl ⟨Or.inl hzero.symm, hleaf⟩
  rcases h.pointer_cases hs .pmd ha with ⟨hzero, hleaf⟩ | ⟨hp', ha'⟩
  · exact Or.inl ⟨Or.inr (Or.inl hzero.symm), hleaf⟩
  rcases h.pointer_cases hs .pte ha' with ⟨hzero, hleaf⟩ | ⟨hp'', ha''⟩
  · exact Or.inl ⟨Or.inr (Or.inr hzero.symm), hleaf⟩
  · refine Or.inr ⟨⟨hp, hp', hp''⟩, ?_⟩
    rw [leafAt, ha'']
    rfl

theorem mapping?_eq_some_iff (x : Word) (t : Mapping) :
    mapping? A x (s.leafAt m x) = some t ↔ t.virtualBase = ⟨x⟩ ∧ t.size = pageSize ∧
      A.Grants (s.pathWords m x) t.physicalBase t.opts := by
  have hvalid {w : Word} (hw : w ∈ (s.pathWords m x).all) (hzero : w = 0) :
      ¬ A.Grants (s.pathWords m x) t.physicalBase t.opts := by
    intro hg
    have hbit := hg.getLsbD_zero hw
    rw [hzero] at hbit
    cases hbit
  have hnone (hleaf : s.leafAt m x = 0) : mapping? A x (s.leafAt m x) = none := by
    rw [mapping?, hleaf, if_neg (by rw [A.lawful.isValid_zero]; exact Bool.false_ne_true)]
  rcases h.pathWords_cases hs x with ⟨hzero, hleaf⟩ | ⟨hpointers, hleaf⟩
  · have hmem := PathWords.mem_all.mpr (Or.inl hzero)
    simp only [hnone hleaf, hvalid hmem rfl, and_false, reduceCtorEq]
  · rcases h.leafAt_zero_or_leaf hs x with hzero | ⟨b, o, hl⟩
    · have hmem := PathWords.mem_all.mpr (Or.inr (Eq.refl (s.pathWords m x).leaf))
      simp only [hnone hzero, hvalid hmem (hleaf.trans hzero), and_false, reduceCtorEq]
    · rw [mapping?, if_pos (hl.isValid A.lawful), hl.address_eq A.lawful, hl.options_eq A.lawful,
        Architecture.grants_iff hpointers (hleaf.symm ▸ hl)]
      obtain ⟨v, b', z, o'⟩ := t
      simp only [Option.some.injEq, Mapping.mk.injEq]
      constructor
      · rintro ⟨rfl, rfl, rfl, rfl⟩
        exact ⟨rfl, rfl, rfl, rfl⟩
      · rintro ⟨rfl, rfl, rfl, rfl⟩
        exact ⟨rfl, rfl, rfl, rfl⟩

end Intact

theorem AddressSpace.pathWords_pageBase (s : AddressSpace A) (m : Memory) (x : VirtualAddress) :
    s.pathWords m x.pageBase.word = s.pathWords m x.word := by
  have hindex (l : Level) : l.index x.pageBase.word = l.index x.word := by
    apply Level.index_congr
    rw [x.toNat_pageBase]
    cases l <;> simp only [Level.shift] <;> omega
  simp only [pathWords, hindex]

namespace Realm

/-- Each canonical address is answered by a lookup, and the answer is what the words on the path
to its page grant. -/
theorem Reachable.lookup_granted (h : Reachable R) (hp : R.memory.Placed A.codec)
    (hs : s ∈ R.spaces) {x : VirtualAddress} (hx : x.isCanonical = true) :
    ∃ found, (s.lookup x).outcome R.memory = .ok found ∧ ∀ t, found = some t ↔
      t.virtualBase = x.pageBase ∧ t.size = pageSize ∧
        A.Grants (s.pathWords R.memory x.word) t.physicalBase t.opts := by
  have hsound := h.sound hp
  refine ⟨_, (lookup_outcome hsound.intact hs hp x).trans (hsound.answer_of_isCanonical hs hx),
    fun t => ?_⟩
  rw [hsound.intact.mapping?_eq_some_iff hs, s.pathWords_pageBase]

def mapCodePage : Call .x86_64 :=
  .change (firstSpace .x86_64 0x1000000)
    (.map ⟨0x5000⟩ 0x1000 (.forUser .readExecute) ⟨0x90000000⟩)

/-- Write permission that all pointers pass on is missing in the leaf. -/
theorem lookup_granted_code :
    let s := firstSpace .x86_64 0x1000000
    let m := (mapCodePage.next (single .x86_64 0x1000000)).memory
    s.pathWords m 0x5abc = ⟨0x1001227, 0x1002227, 0x1003227, 0x90000025⟩ ∧
    (s.lookup ⟨0x5abc⟩).outcome m =
      .ok (some ⟨⟨0x5000⟩, ⟨0x90000000⟩, pageSize, .forUser .readExecute⟩) ∧
    X86.Grants (s.pathWords m 0x5abc) ⟨0x90000000⟩ (.forUser .readExecute) := by
  intro s m
  have hallowed : mapCodePage.Allowed (single .x86_64 0x1000000) :=
    ⟨List.mem_cons_self, unshared_single .x86_64 0x1000000⟩
  have hrun : Leads (fun _ _ => True) (single .x86_64 0x1000000) (mapCodePage.next _) :=
    .call .refl hallowed trivial
  have hplaced : m.Placed Architecture.x86_64.codec :=
    hrun.placed (by decide) (by decide +kernel)
  have hlookup : (s.lookup ⟨0x5abc⟩).outcome m =
      .ok (some ⟨⟨0x5000⟩, ⟨0x90000000⟩, pageSize, .forUser .readExecute⟩) := by
    decide +kernel
  have hreach := hrun.reachable (reachable_single .x86_64 0x1000000)
  obtain ⟨found, hfound, hgranted⟩ := hreach.lookup_granted hplaced (s := s) List.mem_cons_self
    (x := ⟨0x5abc⟩) (by decide)
  obtain rfl := Except.ok.inj (hfound.symm.trans hlookup)
  exact ⟨by decide +kernel, hlookup, ((hgranted _).mp rfl).2.2⟩

end Realm

end Sandbox
