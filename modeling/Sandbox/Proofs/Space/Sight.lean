import Sandbox.Proofs.Space.Inspect

/-! # What is found in a range

A visitor that stops at the first leaf answers with what it finds there, so its answer is read
off the leaves of the range. In two memories that give a space the same leaves, all that can be
asked about its pages has the same answer.
-/

namespace Sandbox

namespace AddressSpace

open Walk

variable {A : Architecture} {S S' : List (AddressSpace A)} {s : AddressSpace A} {m m' : Memory}
  {α : Type} {v : Visitor α} {g : Word → Word → α} {f : Word → Word} {start stop x y : Word}
  {r r' r'' : α}

/-- The visitor stops at the first leaf that it is shown, and answers by `g`. -/
structure Spots (v : Visitor α) (g : Word → Word → α) : Prop where
  allocates : v.allocates = false
  visit : ∀ x w r, v.visit x w r = .ok { result := g x w, proceed := false }

theorem spots_find (A : Architecture) : Spots (Visitor.find A.codec)
    fun x w => some ⟨⟨x⟩, A.codec.address w, pageSize, A.codec.options w⟩ :=
  ⟨rfl, fun _ _ _ => rfl⟩

theorem spots_occupied : Spots Visitor.occupied fun _ _ => true :=
  ⟨rfl, fun _ _ _ => rfl⟩

theorem Spots.watches (hv : Spots v g) : Watches v :=
  ⟨hv.allocates, fun x w r => ⟨_, hv.visit x w r, rfl⟩⟩

structure FirstMapped (A : Architecture) (f : Word → Word) (start stop x : Word) : Prop where
  inside : Inside start stop x
  isValid : A.codec.isValid (f x) = true
  le : ∀ z, Inside start stop z → A.codec.isValid (f z) = true → x.toNat ≤ z.toNat

theorem FirstMapped.unique (hx : FirstMapped A f start stop x) (hy : FirstMapped A f start stop y) :
    x = y :=
  BitVec.eq_of_toNat_eq (le_antisymm (hx.le y hy.inside hy.isValid) (hy.le x hx.inside hx.isValid))

inductive Found (A : Architecture) (g : Word → Word → α) (f : Word → Word) (start stop : Word)
    (r : α) : α → Prop
  | first {x : Word} (hx : FirstMapped A f start stop x) : Found A g f start stop r (g x (f x))
  | none (h : ∀ z, Inside start stop z → A.codec.isValid (f z) = false) :
      Found A g f start stop r r

theorem Found.unique (h : Found A g f start stop r r') (h' : Found A g f start stop r r'') :
    r' = r'' := by
  cases h with
  | first hx =>
    cases h' with
    | first hy => rw [hx.unique hy]
    | none hnone => cases (hnone _ hx.inside).symm.trans hx.isValid
  | none hnone =>
    cases h' with
    | first hy => cases (hnone _ hy.inside).symm.trans hy.isValid
    | none => rfl

theorem Spots.pages (hv : Spots v g) (f : Word → Word) (start stop : Word) (r : α) :
    PageSteps A ⟨A.codec, v, false, stop⟩ start
      (fun n r' f' => f' = f ∧ r' = r ∧
        ∀ z, Inside start stop z → z.toNat < n → A.codec.isValid (f z) = false)
      (fun r' f' => f' = f ∧ Found A g f start stop r r') (fun _ _ => False) where
  skip := by
    rintro x r' f' hx - hzero ⟨rfl, rfl, hbefore⟩
    refine ⟨rfl, rfl, fun z hz hlt => ?_⟩
    have hza := hz.aligned
    have hxa := hx.aligned
    rcases Nat.lt_or_ge z.toNat x.toNat with hzx | hzx
    · exact hbefore z hz hzx
    · obtain rfl : z = x := BitVec.eq_of_toNat_eq (by omega)
      rw [hzero, A.lawful.isValid_zero]
  visit := by
    rintro x r' f' u hx - hval hu ⟨rfl, rfl, hbefore⟩
    have hvalid := hval.resolve_right (by rw [hv.allocates]; exact Bool.false_ne_true)
    obtain rfl := Except.ok.inj ((hv.visit x (f' x) r').symm.trans hu)
    refine ⟨rfl, .first ⟨hx, hvalid, fun z hz hzv => ?_⟩⟩
    by_contra hlt
    cases (hbefore z hz (Nat.lt_of_not_le hlt)).symm.trans hzv
  abort := by
    rintro x r' f' e - - - he -
    cases (hv.visit x (f' x) r').symm.trans he
  full := by
    rintro x r' f' - hal
    cases hv.allocates.symm.trans hal

theorem Spots.inspect_outcome (hv : Spots v g) (h : Intact S m) (hs : s ∈ S)
    (hp : m.Placed A.codec) (ha : Accepted start stop) (r : α) :
    ∃ r', (s.inspect v start stop r).outcome m = .ok r' ∧
      Found A g (s.leafAt m) start stop r r' := by
  have hread := hv.watches.readOnly A stop
  have hscope : Scope S s ⟨A.codec, v, false, stop⟩ start := by
    refine ⟨rfl, hs, ha, fun x w r u w' hu he => ?_, Or.inl hread⟩
    rw [hread.entry _ _ _ _ hu] at he
    cases he
  have htriple := range_triple hscope (Keeps.pages hscope (hv.pages (s.leafAt m) start stop r)) r
  have hplaced := (hv.watches.final_inspect s start stop r m).symm ▸ hp
  have hpre : ∀ z, Inside start stop z → z.toNat < seen stop start →
      A.codec.isValid (s.leafAt m z) = false := by
    intro z hz hlt
    rw [ha.seen_start] at hlt
    exact absurd hz.le (Nat.not_le.mpr hlt)
  cases hout : (s.inspect v start stop r).outcome m with
  | error e => exact (htriple.of_error ⟨h, rfl, rfl, hpre⟩ hplaced hout).2.elim
  | ok r' =>
    refine ⟨r', rfl, ?_⟩
    rcases (htriple.of_ok ⟨h, rfl, rfl, hpre⟩ hplaced hout).2 with
      ⟨y, hy, -, rfl, hbefore⟩ | ⟨-, hfound⟩
    · exact .none fun z hz => hbefore z hz (hz.lt_seen (hz.lt.trans_le hy))
    · exact hfound

/-! ## Several ranges -/

inductive Searched (A : Architecture) (f : Word → Word) (P : Word → Prop) :
    Option Mapping → Prop
  | first {x : Word} {t : Mapping} (hx : P x) (ht : mapping? A x (f x) = some t)
      (hle : ∀ z, P z → A.codec.isValid (f z) = true → x.toNat ≤ z.toNat) :
      Searched A f P (some t)
  | none (h : ∀ z, P z → A.codec.isValid (f z) = false) : Searched A f P none

/-- Ranges in ascending order are searched up to the first page of all that is mapped. -/
theorem findFirst_outcome (h : Intact S m) (hs : s ∈ S) (hp : m.Placed A.codec)
    {L : List (Word × Word)} (hL : ∀ r ∈ L, Accepted r.1 r.2)
    (hord : L.Pairwise fun r r' => r.2.toNat ≤ r'.1.toNat) :
    ∃ r, (s.findFirst L).outcome m = .ok r ∧
      Searched A (s.leafAt m) (fun x => ∃ r ∈ L, Inside r.1 r.2 x) r := by
  induction L with
  | nil => exact ⟨none, rfl, .none fun z ⟨_, hr, _⟩ => absurd hr List.not_mem_nil⟩
  | cons range L ih =>
    obtain ⟨start, stop⟩ := range
    obtain ⟨ha, hL⟩ := List.forall_mem_cons.mp hL
    obtain ⟨hafter, hord⟩ := List.pairwise_cons.mp hord
    obtain ⟨r, hout, hfound⟩ := (spots_find A).inspect_outcome h hs hp ha none
    rw [outcome_findFirst, hout]
    cases hfound with
    | first hx =>
      refine ⟨_, rfl, .first ⟨_, List.mem_cons_self, hx.inside⟩ (if_pos hx.isValid) ?_⟩
      rintro z ⟨range, hr, hz⟩ hv
      rcases List.mem_cons.mp hr with rfl | hr
      · exact hx.le z hz hv
      · exact hx.inside.lt.le.trans ((hafter range hr).trans hz.le)
    | none hnone =>
      obtain ⟨r, hrest, hsearched⟩ := ih hL hord
      refine ⟨r, hrest, ?_⟩
      cases hsearched with
      | first hx ht hle =>
        obtain ⟨range, hr, hin⟩ := hx
        refine .first ⟨range, List.mem_cons_of_mem _ hr, hin⟩ ht ?_
        rintro z ⟨range', hr', hz⟩ hv
        rcases List.mem_cons.mp hr' with rfl | hr'
        · cases (hnone z hz).symm.trans hv
        · exact hle z ⟨range', hr', hz⟩ hv
      | none hnone' =>
        refine .none ?_
        rintro z ⟨range', hr', hz⟩
        rcases List.mem_cons.mp hr' with rfl | hr'
        · exact hnone z hz
        · exact hnone' z ⟨range', hr', hz⟩

/-! ## One space in two memories -/

/-- What can be asked about the pages of the space has the same answer in both memories. -/
structure AnswersAlike (s : AddressSpace A) (m m' : Memory) : Prop where
  lookup : ∀ a, (s.lookup a).outcome m' = (s.lookup a).outcome m
  lookupFirst : ∀ a, (s.lookupFirst a).outcome m' = (s.lookupFirst a).outcome m
  isEmpty : ∀ a length, (s.isEmpty a length).outcome m' = (s.isEmpty a length).outcome m

section Leaves

variable (h : Intact S m) (hs : s ∈ S) (hp : m.Placed A.codec) (h' : Intact S' m') (hs' : s ∈ S')
  (hp' : m'.Placed A.codec) (hleaves : ∀ y, s.leafAt m' y = s.leafAt m y)

include h hs hp h' hs' hp' hleaves

theorem Spots.inspect_outcome_eq (hv : Spots v g) (start stop : Word) (r : α) :
    (s.inspect v start stop r).outcome m' = (s.inspect v start stop r).outcome m := by
  cases hacc : accept start stop with
  | error e =>
    rw [inspect, range_eq_throw hacc]
    rfl
  | ok u =>
    have ha := accept_eq_ok_iff.mp hacc
    obtain ⟨r₁, hout₁, hfound₁⟩ := hv.inspect_outcome h hs hp ha r
    obtain ⟨r₂, hout₂, hfound₂⟩ := hv.inspect_outcome h' hs' hp' ha r
    rw [funext hleaves] at hfound₂
    rw [hout₁, hout₂, hfound₁.unique hfound₂]

theorem findFirst_outcome_eq (L : List (Word × Word)) :
    (s.findFirst L).outcome m' = (s.findFirst L).outcome m := by
  induction L with
  | nil => rfl
  | cons range L ih =>
    rw [outcome_findFirst, outcome_findFirst, ih,
      (spots_find A).inspect_outcome_eq h hs hp h' hs' hp' hleaves]

theorem answersAlike_of_leaves : s.AnswersAlike m m' where
  lookup a := by
    cases hstop : Word.add? a.pageBase.word pageSize with
    | none => simp only [lookup_last hstop, Action.outcome]; rfl
    | some stop =>
      rw [lookup_eq hstop, (spots_find A).inspect_outcome_eq h hs hp h' hs' hp' hleaves]
  lookupFirst a := findFirst_outcome_eq h hs hp h' hs' hp' hleaves _
  isEmpty a length := by
    cases hb : bounds a length with
    | error e =>
      rw [isEmpty_eq_throw s hb]
      rfl
    | ok range =>
      rw [outcome_isEmpty s m hb, outcome_isEmpty s m' hb,
        spots_occupied.inspect_outcome_eq h hs hp h' hs' hp' hleaves]

end Leaves

end AddressSpace

end Sandbox
