import Sandbox.Proofs.Walk.Books

/-! # The visits of a walk

A walk makes its visits as if it had a list of them from the start: the pages of its range in
ascending order, or those of them that are mapped if it does not allocate, each with the entry that
it has before the walk. The walk goes through this list until a visit stops it or fails, or until
no array is left for the next page.
-/

namespace Sandbox

open Walk

namespace Visitor

variable {α : Type} {v : Visitor α} {l l' : List (Word × Word)} {r r' : α} {f f' : Word → Word}
  {x w : Word} {u : Visit α}

/-- Visit pages with their entries one after the other, until a visit stops or fails. What the
visits write goes to the leaves `f`. -/
def sweep (v : Visitor α) :
    List (Word × Word) → α → (Word → Word) → Except Stop α × (Word → Word)
  | [], r, f => (.ok r, f)
  | (x, w) :: l, r, f =>
    match v.visit x w r with
    | .error e => (.error (.abort e), f)
    | .ok u =>
      if u.proceed then v.sweep l u.result (rewrite f x u.entry)
      else (.ok u.result, rewrite f x u.entry)

/-- The visits of a list lead from one result and its leaves to others, and go on from there. -/
def LeadsTo (v : Visitor α) (l : List (Word × Word)) (r : α) (f : Word → Word) (r' : α)
    (f' : Word → Word) : Prop :=
  ∀ l', v.sweep (l ++ l') r f = v.sweep l' r' f'

theorem LeadsTo.refl (v : Visitor α) (r : α) (f : Word → Word) : v.LeadsTo [] r f r f :=
  fun _ => rfl

theorem LeadsTo.sweep_eq (h : v.LeadsTo l r f r' f') : v.sweep l r f = (.ok r', f') := by
  simpa [sweep] using h []

theorem LeadsTo.step (h : v.LeadsTo l r f r' f') (hu : v.visit x w r' = .ok u)
    (hgo : u.proceed = true) :
    v.LeadsTo (l ++ [(x, w)]) r f u.result (rewrite f' x u.entry) := by
  intro l'
  rw [List.append_assoc, h]
  simp [sweep, hu, hgo]

theorem LeadsTo.sweep_stop (h : v.LeadsTo l r f r' f') (hu : v.visit x w r' = .ok u)
    (hstop : ¬ u.proceed = true) :
    v.sweep (l ++ (x, w) :: l') r f = (.ok u.result, rewrite f' x u.entry) := by
  rw [h]
  simp [sweep, hu, hstop]

theorem LeadsTo.sweep_abort {e : Abort} (h : v.LeadsTo l r f r' f')
    (he : v.visit x w r' = .error e) :
    v.sweep (l ++ (x, w) :: l') r f = (.error (.abort e), f') := by
  rw [h]
  simp [sweep, he]

/-- The visits of the list are made up to one of them, for which there is no leaf. -/
def CutOff (v : Visitor α) (l : List (Word × Word)) (r : α) (f f' : Word → Word) : Prop :=
  ∃ done x rest r', l = done ++ (x, 0) :: rest ∧ v.LeadsTo done r f r' f'

end Visitor

namespace Walk

variable {α : Type} {A : Architecture} {S : List (AddressSpace A)} {s : AddressSpace A}
  {plan : Plan α} {start stop x y : Word} {m : Memory} {r r' : α} {f f₀ : Word → Word}
  {w : Word} {n k : Nat}

/-! ## Pages in order -/

def pagesTo (start : Word) (n : Nat) : List Word :=
  (List.range ((n - start.toNat) / 4096)).map fun k => start + BitVec.ofNat 64 (4096 * k)

theorem toNat_pageFrom (hk : start.toNat + 4096 * k < 2 ^ 64) :
    (start + BitVec.ofNat 64 (4096 * k)).toNat = start.toNat + 4096 * k := by
  rw [BitVec.toNat_add, BitVec.toNat_ofNat, Nat.add_mod_mod, Nat.mod_eq_of_lt hk]

theorem mem_pagesTo (hs : start.toNat % 4096 = 0) (hn : n % 4096 = 0) (hle : n ≤ 2 ^ 64) :
    x ∈ pagesTo start n ↔ start.toNat ≤ x.toNat ∧ x.toNat < n ∧ x.toNat % 4096 = 0 := by
  simp only [pagesTo, List.mem_map, List.mem_range]
  constructor
  · rintro ⟨k, hk, rfl⟩
    rw [toNat_pageFrom (by omega)]
    omega
  · rintro ⟨hlow, hhigh, hx⟩
    refine ⟨(x.toNat - start.toNat) / 4096, by omega, BitVec.eq_of_toNat_eq ?_⟩
    rw [toNat_pageFrom (by omega)]
    omega

theorem pagesTo_ascending (hle : n ≤ 2 ^ 64) : (pagesTo start n).Pairwise (· < ·) := by
  rw [pagesTo, List.pairwise_map]
  refine List.pairwise_lt_range.imp_of_mem fun {i j} hi hj hij => ?_
  rw [List.mem_range] at hi hj
  rw [BitVec.lt_def, toNat_pageFrom (by omega), toNat_pageFrom (by omega)]
  omega

theorem pagesTo_add (hs : start.toNat % 4096 = 0) (hx : Inside start stop x) :
    pagesTo start (x.toNat + 4096) = pagesTo start x.toNat ++ [x] := by
  have hle := hx.le
  have haligned := hx.aligned
  have hlt := x.isLt
  have hcount : (x.toNat + 4096 - start.toNat) / 4096 = (x.toNat - start.toNat) / 4096 + 1 := by
    omega
  have hpage : start + BitVec.ofNat 64 (4096 * ((x.toNat - start.toNat) / 4096)) = x := by
    apply BitVec.eq_of_toNat_eq
    rw [toNat_pageFrom (by omega)]
    omega
  rw [pagesTo, hcount, List.range_succ, List.map_append, List.map_singleton, hpage, pagesTo]

theorem pagesTo_initial (start : Word) {n n' : Nat} (h : n ≤ n') :
    pagesTo start n <+: pagesTo start n' := by
  apply List.IsPrefix.map
  obtain ⟨d, hd⟩ := Nat.exists_eq_add_of_le
    (Nat.div_le_div_right (c := 4096) (Nat.sub_le_sub_right h start.toNat))
  rw [hd, List.range_add]
  exact List.prefix_append _ _

/-! ## The visits to come -/

def Plan.visitsTo (plan : Plan α) (f : Word → Word) (start : Word) (n : Nat) :
    List (Word × Word) :=
  ((pagesTo start n).filter fun x => plan.visitor.allocates || plan.codec.isValid (f x)).map
    fun x => (x, f x)

def Plan.visits (plan : Plan α) (f : Word → Word) (start : Word) : List (Word × Word) :=
  plan.visitsTo f start (pageEnd plan.stop)

theorem mem_visits (ha : Accepted start plan.stop) :
    (x, w) ∈ plan.visits f start ↔ Inside start plan.stop x ∧ w = f x ∧
      (plan.visitor.allocates = true ∨ plan.codec.isValid w = true) := by
  have hend := ha.stop_le
  have hmem := mem_pagesTo (x := x) (n := pageEnd plan.stop) ha.aligned
    (Nat.mul_mod_left _ _) (by unfold pageEnd; omega)
  have hinside : Inside start plan.stop x ↔ x ∈ pagesTo start (pageEnd plan.stop) := by
    rw [hmem]
    constructor
    · exact fun h => ⟨h.le, h.lt_pageEnd, h.aligned⟩
    · exact fun ⟨hle, hlt, hx⟩ => Covers.inside ⟨hle, hlt⟩ hx
  simp only [Plan.visits, Plan.visitsTo, List.mem_map, List.mem_filter, Bool.or_eq_true,
    Prod.mk.injEq, hinside]
  constructor
  · rintro ⟨y, ⟨hy, hval⟩, rfl, rfl⟩
    exact ⟨hy, rfl, hval⟩
  · rintro ⟨hx, rfl, hval⟩
    exact ⟨x, ⟨hx, hval⟩, rfl, rfl⟩

/-- Each page is visited once, after those before it. -/
theorem visits_ascending (ha : Accepted start plan.stop) :
    (plan.visits f start).Pairwise (·.1 < ·.1) := by
  have hend := ha.stop_le
  rw [Plan.visits, Plan.visitsTo, List.pairwise_map]
  exact (pagesTo_ascending (by unfold pageEnd; omega)).filter _

theorem visitsTo_add (ha : Accepted start plan.stop) (hx : Inside start plan.stop x) :
    plan.visitsTo f start (x.toNat + 4096) = plan.visitsTo f start x.toNat ++
      if plan.visitor.allocates = true ∨ plan.codec.isValid (f x) = true then [(x, f x)] else [] := by
  rw [Plan.visitsTo, pagesTo_add ha.aligned hx, List.filter_append, List.map_append,
    Plan.visitsTo]
  congr 1
  split <;> simp_all

theorem visits_eq_append (ha : Accepted start plan.stop) (hx : Inside start plan.stop x)
    (hval : plan.visitor.allocates = true ∨ plan.codec.isValid (f x) = true) :
    ∃ rest, plan.visits f start =
      plan.visitsTo f start x.toNat ++ (x, f x) :: rest := by
  have hlt := hx.lt_pageEnd
  have haligned := hx.aligned
  have hnext := visitsTo_add (f := f) ha hx
  rw [if_pos hval] at hnext
  have hprefix : plan.visitsTo f start (x.toNat + 4096) <+: plan.visits f start :=
    ((pagesTo_initial start (by unfold pageEnd at hlt ⊢; omega)).filter _).map _
  obtain ⟨rest, hrest⟩ := hprefix
  exact ⟨rest, by rw [← hrest, hnext, List.append_assoc, List.singleton_append]⟩

/-! ## The visits made -/

/-- The visits of the pages before `n` led to this result and to these leaves, and the pages from
`n` on are as they were. -/
structure Swept (plan : Plan α) (start : Word) (r₀ : α) (f₀ : Word → Word) (n : Nat) (r : α)
    (f : Word → Word) : Prop where
  ahead : ∀ z, Inside start plan.stop z → n ≤ z.toNat → f z = f₀ z
  leads : plan.visitor.LeadsTo (plan.visitsTo f₀ start n) r₀ f₀ r f

theorem Swept.refl (plan : Plan α) (start : Word) (r : α) (f : Word → Word) :
    Swept plan start r f start.toNat r f := by
  refine ⟨fun _ _ _ => rfl, ?_⟩
  have hnone : plan.visitsTo f start start.toNat = [] := by simp [Plan.visitsTo, pagesTo]
  rw [hnone]
  exact .refl _ _ _

theorem PageSteps.swept (hs : Scope S s plan start) (r₀ : α) (f₀ : Word → Word) :
    PageSteps A plan start (Swept plan start r₀ f₀)
      (fun r f => plan.visitor.sweep (plan.visits f₀ start) r₀ f₀ = (.ok r, f))
      (fun e f => plan.visitor.sweep (plan.visits f₀ start) r₀ f₀ = (.error e, f) ∨
        e = .refusal .outOfMemory ∧ plan.visitor.allocates = true ∧
          plan.visitor.CutOff (plan.visits f₀ start) r₀ f₀ f) where
  skip := by
    intro x r f hx hal h0 h
    have hold := h.ahead x hx le_rfl
    refine ⟨fun z hz hn => h.ahead z hz (by omega), ?_⟩
    rw [visitsTo_add hs.accepted hx, if_neg, List.append_nil]
    · exact h.leads
    · rw [← hold, h0, hal, hs.codec_eq, A.lawful.isValid_zero]
      simp
  visit := by
    intro x r f v hx _ hval hv h
    have hold := h.ahead x hx le_rfl
    have hpage := hs.accepted.isPage hx
    rw [hold] at hval hv
    have hval' : plan.visitor.allocates = true ∨ plan.codec.isValid (f₀ x) = true := by
      rw [hs.codec_eq]
      exact hval.symm
    split
    · next hgo =>
      refine ⟨fun z hz hn => ?_, ?_⟩
      · rw [rewrite_eq_getD hpage (hs.accepted.isPage hz), if_neg, h.ahead z hz (by omega)]
        rintro rfl
        omega
      · rw [visitsTo_add hs.accepted hx, if_pos hval']
        exact h.leads.step hv hgo
    · next hstop =>
      obtain ⟨rest, hrest⟩ := visits_eq_append hs.accepted hx hval'
      rw [hrest]
      exact h.leads.sweep_stop hv hstop
  abort := by
    intro x r f e hx _ hval he h
    have hold := h.ahead x hx le_rfl
    rw [hold] at hval he
    obtain ⟨rest, hrest⟩ := visits_eq_append (f := f₀) hs.accepted hx
      (hs.codec_eq ▸ hval.symm)
    rw [hrest]
    exact Or.inl (h.leads.sweep_abort he)
  full := by
    intro x r f hx hal h0 h
    have hold := h.ahead x hx le_rfl
    obtain ⟨rest, hrest⟩ := visits_eq_append (f := f₀) hs.accepted hx (Or.inl hal)
    rw [← hold, h0] at hrest
    exact Or.inr ⟨rfl, hal, _, x, rest, r, hrest, h.leads⟩

/-- A walk ends as its visits do, unless there is no array left for one of them. -/
theorem range_swept (hs : Scope S s plan start) (hi : Intact S m) (r : α)
    (hp : ((range plan s.root start r).final m).Placed A.codec) :
    let act := range plan s.root start r
    let visits := plan.visits (s.leafAt m) start
    plan.visitor.sweep visits r (s.leafAt m) = (act.outcome m, s.leafAt (act.final m)) ∨
      act.outcome m = .error (.refusal .outOfMemory) ∧ plan.visitor.allocates = true ∧
        (act.final m).limitReached = true ∧
        plan.visitor.CutOff visits r (s.leafAt m) (s.leafAt (act.final m)) := by
  intro act visits
  have htriple := range_triple hs
    ((Keeps.pages hs (.swept hs r (s.leafAt m))).and Keeps.starved) r
  have hpre : Intact S m ∧ Swept plan start r (s.leafAt m) (seen plan.stop start) r (s.leafAt m) ∧
      True := by
    rw [hs.accepted.seen_start]
    exact ⟨hi, .refl plan start r _, trivial⟩
  cases hout : act.outcome m with
  | ok r' =>
    obtain ⟨-, ⟨y, hy, hswept, -⟩ | ⟨hstop, -⟩⟩ := htriple.of_ok hpre hp hout
    · rw [seen_of_stop_le hy] at hswept
      exact Or.inl hswept.leads.sweep_eq
    · exact Or.inl hstop
  | error e =>
    obtain ⟨-, hfail | ⟨rfl, hal, hcut⟩, hstarved⟩ := htriple.of_error hpre hp hout
    · exact Or.inl hfail
    · exact Or.inr ⟨rfl, hal, (hstarved rfl).1, hcut⟩

end Walk

end Sandbox
