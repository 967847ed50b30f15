import Sandbox.Proofs.Tree.Edit

/-! # Shapes of trees

The shape of a tree is what it says apart from how its entries are spelled and where its
arrays lie. Each edit of a tree changes its shape at one path, and the paths at which a tree
has a word are those at which its shape is not free.
-/

namespace Sandbox

inductive Shape
  | free
  | table
  | leaf (frame : PhysicalAddress) (opts : MapOptions)
  deriving DecidableEq

namespace EntryCodec

variable {c : EntryCodec} {w : Word} {a : PhysicalAddress} {o : MapOptions}

def shape (c : EntryCodec) (w : Word) : Shape :=
  if c.isValid w then if c.isTable w then .table else .leaf (c.address w) (c.options w) else .free

theorem shape_eq_free_iff : c.shape w = .free ↔ c.isValid w = false := by
  unfold shape
  cases c.isValid w <;> cases c.isTable w <;> simp

theorem shape_eq_table_iff : c.shape w = .table ↔ c.isIntermediate w = true := by
  unfold shape isIntermediate
  cases c.isValid w <;> cases c.isTable w <;> simp

theorem Lawful.shape_zero (hc : c.Lawful) : c.shape 0 = .free :=
  shape_eq_free_iff.mpr hc.isValid_zero

theorem IsPointer.shape_eq (hc : c.Lawful) (h : c.IsPointer w a) : c.shape w = .table :=
  shape_eq_table_iff.mpr (h.isIntermediate hc)

theorem IsLeafOf.shape_eq (hc : c.Lawful) (h : c.IsLeafOf w a o) :
    c.shape w = .leaf a o.normalized := by
  simp [shape, h.isValid hc, h.isTable hc, h.address_eq hc, h.options_eq hc]

end EntryCodec

open AddressSpace

variable {A A' : Architecture} {S : List (AddressSpace A)} {S' : List (AddressSpace A')}
  {s : AddressSpace A} {s' : AddressSpace A'} {m m' : Memory} {p q : List (Fin 512)}
  {a b : PhysicalAddress} {i j : Fin 512} {w : Word}

namespace AddressSpace

/-- The shape of the entry at the end of a path. No entry leads to the root. -/
def shapeAt (s : AddressSpace A) (m : Memory) : List (Fin 512) → Shape
  | [] => .table
  | i :: p =>
    if p.length ≤ 3 then
      match s.arrayAt m p with
      | some a => A.codec.shape (m.entry a i)
      | none => .free
    else .free

theorem shapeAt_nil (s : AddressSpace A) (m : Memory) : s.shapeAt m [] = .table := rfl

theorem shapeAt_cons (hp : p.length ≤ 3) (ha : s.arrayAt m p = some a) :
    s.shapeAt m (i :: p) = A.codec.shape (m.entry a i) := by
  rw [shapeAt, if_pos hp, ha]

theorem shapeAt_cons_of_none (ha : s.arrayAt m p = none) : s.shapeAt m (i :: p) = .free := by
  rw [shapeAt, ha, ite_self]

theorem shapeAt_cons_of_lt (hp : 3 < p.length) : s.shapeAt m (i :: p) = .free := by
  rw [shapeAt, if_neg (by omega)]

/-- The paths that lead to an array are those whose last entry is a pointer. -/
theorem shapeAt_eq_table_iff (hq : q.length ≤ 3) :
    s.shapeAt m q = .table ↔ ∃ a, s.arrayAt m q = some a := by
  cases q with
  | nil => exact ⟨fun _ => ⟨s.root, rfl⟩, fun _ => rfl⟩
  | cons i p =>
    have hp : p.length ≤ 3 := Nat.le_of_succ_le hq
    rw [arrayAt_cons]
    cases ha : s.arrayAt m p with
    | none => simp [shapeAt_cons_of_none ha]
    | some a =>
      rw [shapeAt_cons hp ha, EntryCodec.shape_eq_table_iff, Option.bind_some, EntryCodec.child?]
      split <;> simp [*]

theorem Untouched.shapeAt_eq (h : s.Untouched m m') : s.shapeAt m' = s.shapeAt m := by
  funext q
  cases q with
  | nil => rfl
  | cons i p =>
    by_cases hp : p.length ≤ 3
    · cases ha : s.arrayAt m p with
      | none =>
        rw [shapeAt_cons_of_none ha, shapeAt_cons_of_none (by rw [h.arrayAt_eq hp, ha])]
      | some a =>
        rw [shapeAt_cons hp ha, shapeAt_cons hp (by rw [h.arrayAt_eq hp, ha]), h p a hp ha]
    · rw [shapeAt_cons_of_lt (by omega), shapeAt_cons_of_lt (by omega)]

theorem shapeAt_congr_root {t : AddressSpace A} (h : m.entry s.root i = m.entry t.root i)
    (hq : q.getLast? = some i) : s.shapeAt m q = t.shapeAt m q := by
  match q, hq with
  | [j], hq =>
    obtain rfl : j = i := Option.some.inj hq
    rw [shapeAt_cons (by simp) (s.arrayAt_nil m), shapeAt_cons (by simp) (t.arrayAt_nil m), h]
  | j :: k :: p, hq =>
    rw [List.getLast?_cons_cons] at hq
    rw [shapeAt, shapeAt, arrayAt_congr_root h hq]

theorem vacant_iff (hp : p.length ≤ 3) (ha : s.arrayAt m p = some a) :
    Site.Vacant m A.codec a ↔ ∀ j, s.shapeAt m (j :: p) = .free := by
  apply forall_congr'
  intro j
  rw [shapeAt_cons hp ha, EntryCodec.shape_eq_free_iff]

theorem entry_eq_zero_iff (h : Intact S m) (hs : s ∈ S) (hp : p.length ≤ 3)
    (ha : s.arrayAt m p = some a) : m.entry a i = 0 ↔ s.shapeAt m (i :: p) = .free := by
  rw [shapeAt_cons hp ha, EntryCodec.shape_eq_free_iff]
  constructor
  · intro h0
    rw [h0, A.lawful.isValid_zero]
  · intro hv
    by_cases hlt : p.length < 3
    · refine (h.pointers_of_arrayAt hs hlt ha i).resolve_right ?_
      rintro ⟨b, hb⟩
      rw [hb.isValid A.lawful] at hv
      cases hv
    · refine (h.leaves_of_arrayAt hs (by omega) ha i).resolve_right ?_
      rintro ⟨b, o, hl⟩
      rw [hl.isValid A.lawful] at hv
      cases hv

end AddressSpace

/-! ## Edits -/

namespace Site

theorem shapeAt_eq (h : Site S m s p a i)
    (hsame : ∀ b ∈ m.live, ∀ j, ¬ (b = a ∧ j = i) → m'.entry b j = m.entry b j)
    (hq : ¬ i :: p <:+ q) : s.shapeAt m' q = s.shapeAt m q := by
  cases q with
  | nil => rfl
  | cons j r =>
    by_cases hr : r.length ≤ 3
    · have harr : s.arrayAt m' r = s.arrayAt m r :=
        h.arrayAt_eq hsame h.mem hr fun hc => hq (hc.2.trans (List.suffix_cons j r))
      cases hb : s.arrayAt m r with
      | none => rw [shapeAt_cons_of_none hb, shapeAt_cons_of_none (harr.trans hb)]
      | some b =>
        rw [shapeAt_cons hr hb, shapeAt_cons hr (harr.trans hb),
          hsame b (h.intact.mem_live_of_arrayAt h.mem hr hb)]
        rintro ⟨rfl, rfl⟩
        obtain ⟨-, rfl⟩ := h.intact.eq_of_arrayAt h.mem h.unshared h.owns h.mem hr hb
        exact hq List.suffix_rfl
    · rw [shapeAt_cons_of_lt (by omega), shapeAt_cons_of_lt (by omega)]

/-- An edit changes the shape at the site if nothing below it differs. -/
theorem shapeAt_eq_update (h : Site S m s p a i)
    (hsame : ∀ b ∈ m.live, ∀ j, ¬ (b = a ∧ j = i) → m'.entry b j = m.entry b j)
    (hbelow : ∀ j r, i :: p <:+ r → r.length ≤ 3 → s.shapeAt m' (j :: r) = s.shapeAt m (j :: r)) :
    s.shapeAt m' = Function.update (s.shapeAt m) (i :: p) (A.codec.shape (m'.entry a i)) := by
  have hp := h.owns.length_le
  funext q
  by_cases hq : q = i :: p
  · have harr : s.arrayAt m' p = some a := by
      rw [h.arrayAt_eq hsame h.mem hp fun hc => not_cons_suffix i p hc.2, h.owns.arrayAt_eq]
    rw [hq, Function.update_self, shapeAt_cons hp harr]
  · rw [Function.update_of_ne hq]
    by_cases hsuf : i :: p <:+ q
    · cases q with
      | nil => rfl
      | cons j r =>
        by_cases hr : r.length ≤ 3
        · refine hbelow j r ((List.suffix_cons_iff.mp hsuf).resolve_left fun he => hq he.symm) hr
        · rw [shapeAt_cons_of_lt (by omega), shapeAt_cons_of_lt (by omega)]
    · exact h.shapeAt_eq hsame hsuf

theorem shapeAt_setEntry (h : Site S m s p a i) (hp : p.length = 3) :
    s.shapeAt (m.setEntry a i w) =
      Function.update (s.shapeAt m) (i :: p) (A.codec.shape w) := by
  rw [h.shapeAt_eq_update h.same_setEntry, h.entry_setEntry, if_pos ⟨rfl, rfl⟩]
  intro j r hsuf hr
  have := hsuf.length_le
  rw [List.length_cons] at this
  omega

theorem shapeAt_attach (h : Site S m s p a i) (hnew : m.nextArray ∉ m.live) (hp : p.length < 3)
    (hold : A.codec.isValid (m.entry a i) = false) (hw : A.codec.IsPointer w m.nextArray) :
    s.shapeAt (m.attach a i w) = Function.update (s.shapeAt m) (i :: p) .table := by
  have harr {r : List (Fin 512)} (hr : r.length ≤ 3) :=
    h.arrayAt_attach hnew hp hold (hw.child?_eq A.lawful) h.mem hr
  have hnone : s.arrayAt m (i :: p) = none := by
    rw [arrayAt_cons, h.owns.arrayAt_eq, Option.bind_some, EntryCodec.child?_eq_none hold]
  rw [h.shapeAt_eq_update (h.same_attach hnew), Memory.entry_attach h.mem_arrays,
    if_pos ⟨rfl, rfl⟩, hw.shape_eq A.lawful]
  intro j r hsuf hr
  rw [shapeAt_cons_of_none (arrayAt_none_of_suffix hnone hsuf)]
  by_cases hri : r = i :: p
  · rw [shapeAt_cons hr (by rw [harr hr, if_pos ⟨rfl, hri⟩]), Memory.entry_attach h.mem_arrays,
      if_neg fun hc => h.ne_nextArray hnew hc.1.symm, if_pos rfl, A.lawful.shape_zero]
  · rw [shapeAt_cons_of_none]
    rw [harr hr, if_neg fun hc => hri hc.2, arrayAt_none_of_suffix hnone hsuf]

theorem shapeAt_detach (h : Site S m s p a i) (hb : s.arrayAt m (i :: p) = some b)
    (hvac : Vacant m A.codec b) (hp : p.length < 3) :
    s.shapeAt (m.detach a i b) = Function.update (s.shapeAt m) (i :: p) .free := by
  have harr {r : List (Fin 512)} (hr : r.length ≤ 3) := h.arrayAt_detach hb hvac h.mem hr
  have hnone : s.arrayAt (m.detach a i b) (i :: p) = none := by
    rw [harr (by rw [List.length_cons]; omega), if_pos ⟨rfl, rfl⟩]
  rw [h.shapeAt_eq_update h.same_detach, h.entry_detach, if_pos ⟨rfl, rfl⟩, A.lawful.shape_zero]
  intro j r hsuf hr
  have hbelow := arrayAt_none_of_suffix hnone hsuf
  rw [shapeAt_cons_of_none hbelow]
  by_cases hri : r = i :: p
  · subst hri
    exact ((vacant_iff hr hb).mp hvac j).symm
  · rw [harr hr, if_neg fun hc => hri hc.2] at hbelow
    rw [shapeAt_cons_of_none hbelow]

end Site

/-! ## Words -/

namespace AddressSpace

section SameShape

variable (h : Intact S m) (hs : s ∈ S) (h' : Intact S' m') (hs' : s' ∈ S')
  (hshape : s'.shapeAt m' = s.shapeAt m)

include h hs h' hs' hshape

theorem entry_eq_zero_congr (hp : p.length ≤ 3) (ha : s.arrayAt m p = some a)
    (hb : s'.arrayAt m' p = some b) (i : Fin 512) : m'.entry b i = 0 ↔ m.entry a i = 0 := by
  rw [entry_eq_zero_iff h hs hp ha, entry_eq_zero_iff h' hs' hp hb, hshape]

theorem wordsBelow_paths_eq : ∀ (l : Level) (p : List (Fin 512)) (a b : PhysicalAddress)
    (path : List Nat), p.length = l.depth → s.arrayAt m p = some a → s'.arrayAt m' p = some b →
    (wordsBelow A' m' l b path).map Prod.fst = (wordsBelow A m l a path).map Prod.fst := by
  have hzero {p a b} := entry_eq_zero_congr (p := p) (a := a) (b := b) h hs h' hs' hshape
  apply Level.ascending
  · intro p a b path hp ha hb
    rw [wordsBelow_pte, wordsBelow_pte, List.map_flatMap, List.map_flatMap]
    congr 1
    funext i
    simp only [hzero (by rw [hp]; decide) ha hb i]
    split <;> rfl
  · intro child l hbelow ih p a b path hp ha hb
    have hdepth := hbelow.depth_lt
    have hlen (i : Fin 512) : (i :: p).length = child.depth := by
      rw [List.length_cons, hp, hbelow.depth_eq]
    have hle (i : Fin 512) : (i :: p).length ≤ 3 := (hlen i).trans_le child.depth_le
    rw [wordsBelow_below hbelow, wordsBelow_below hbelow, List.map_flatMap, List.map_flatMap]
    congr 1
    funext i
    have htable : A'.codec.isIntermediate (m'.entry b i) = true ↔
        A.codec.isIntermediate (m.entry a i) = true := by
      rw [← EntryCodec.shape_eq_table_iff, ← EntryCodec.shape_eq_table_iff,
        ← shapeAt_cons (by omega) ha, ← shapeAt_cons (by omega) hb, hshape]
    simp only [hzero (by omega) ha hb i]
    split
    · rfl
    · simp only [List.map_cons]
      congr 1
      by_cases hw : A.codec.isIntermediate (m.entry a i) = true
      · have hchild := arrayAt_cons_of_isIntermediate ha hw
        have hchild' := arrayAt_cons_of_isIntermediate hb (htable.mpr hw)
        rw [if_pos ⟨htable.mpr hw, h'.contains_live hs' (hle i) hchild'⟩,
          if_pos ⟨hw, h.contains_live hs (hle i) hchild⟩, ih _ _ _ _ (hlen i) hchild hchild']
      · rw [if_neg fun hc => hw (htable.mp hc.1), if_neg fun hc => hw hc.1]

/-- Trees of one shape have words at the same paths. -/
theorem words_paths_eq : (s'.words m').map Prod.fst = (s.words m).map Prod.fst := by
  have hroot := s.arrayAt_nil m
  have hroot' := s'.arrayAt_nil m'
  unfold words
  rw [if_pos (h'.contains_live hs' (by simp) hroot'), if_pos (h.contains_live hs (by simp) hroot)]
  exact wordsBelow_paths_eq h hs h' hs' hshape .pgd [] s.root s'.root [] rfl hroot hroot'

end SameShape

end AddressSpace

end Sandbox
