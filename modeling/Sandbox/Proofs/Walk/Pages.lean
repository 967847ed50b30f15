import Sandbox.Proofs.Walk.Rule

/-! # Walks page by page

Seen from the pages, a walk goes through its range one page after the other, although it
skips whole subtrees. It changes leaves of its range only, and no leaf of another space.
-/

namespace Sandbox

namespace Level

theorem path_suffix_pte (l : Level) (x : Word) : l.path x <:+ pte.path x := by
  cases l
  · exact List.suffix_rfl
  · exact ⟨[pmd.index x], rfl⟩
  · exact ⟨[pmd.index x, pud.index x], rfl⟩
  · exact ⟨pte.path x, by simp [path]⟩

theorem eq_pte_or_below (l : Level) : l = .pte ∨ ∃ child, Below child l := by
  cases l
  · exact Or.inl rfl
  · exact Or.inr ⟨_, .pte⟩
  · exact Or.inr ⟨_, .pmd⟩
  · exact Or.inr ⟨_, .pud⟩

theorem path_congr_slot {l : Level} {x z : Word}
    (h : z.toNat / 2 ^ l.shift = x.toNat / 2 ^ l.shift) : l.path z = l.path x := by
  apply path_congr
  rw [pow_add, ← Nat.div_div_eq_div_mul, ← Nat.div_div_eq_div_mul, h]

end Level

namespace Walk

variable {α : Type} {A : Architecture} {S : List (AddressSpace A)} {s t : AddressSpace A}
  {plan : Plan α} {start stop x y z w : Word} {m m₀ : Memory} {l child : Level}
  {a b : PhysicalAddress}

theorem At.leafAt_eq (h : At S s start stop m .pte a x) :
    s.leafAt m x = m.entry a (Level.pte.index x) := by
  rw [AddressSpace.leafAt, h.arrayAt_eq]

theorem leafAt_eq_zero (h : Intact S m) (hs : s ∈ S) (ha : s.arrayAt m (l.path z) = some a)
    (hv : A.codec.isValid (m.entry a (l.index z)) = false) : s.leafAt m z = 0 := by
  rcases l.eq_pte_or_below with rfl | ⟨child, hb⟩
  · refine (h.leafAt_zero_or_leaf hs z).resolve_right ?_
    rintro ⟨b, o, hl⟩
    have hvalid := hl.isValid A.lawful
    rw [AddressSpace.leafAt, ha] at hvalid
    rw [hv] at hvalid
    cases hvalid
  · have hnone : s.arrayAt m (child.path z) = none := by
      rw [hb.path_eq, AddressSpace.arrayAt_cons, ha, Option.bind_some,
        EntryCodec.child?_eq_none hv]
    rw [AddressSpace.leafAt, AddressSpace.arrayAt_none_of_suffix hnone (child.path_suffix_pte z)]

theorem At.leafAt_eq_zero (h : At S s start stop m l a x)
    (hv : A.codec.isValid (m.entry a (l.index x)) = false)
    (hz : z.toNat / 2 ^ l.shift = x.toNat / 2 ^ l.shift) : s.leafAt m z = 0 := by
  apply Walk.leafAt_eq_zero h.intact h.mem
  · rw [Level.path_congr_slot hz, h.arrayAt_eq]
  · rwa [Level.index_congr hz]

theorem leaves_attach (hb : Level.Below child l) (hsite : Site S m s (l.path x) a (l.index x))
    (hv : A.codec.isValid (m.entry a (l.index x)) = false) (hnew : m.nextArray ∉ m.live)
    (hw : A.codec.IsPointer w m.nextArray) :
    s.leafAt (m.attach a (l.index x) w) = s.leafAt m := by
  funext y
  exact hsite.leafAt_attach hnew (hb.length_path_lt x) hv (hw.child?_eq A.lawful) hsite.mem y

theorem leaves_detach (hb : Level.Below child l) (hsite : Site S m s (l.path x) a (l.index x))
    (hc : At S s start stop m child b x) (hvac : Site.Vacant m A.codec b) :
    s.leafAt (m.detach a (l.index x) b) = s.leafAt m := by
  funext y
  exact hsite.leafAt_detach (hc.arrayAt_below hb) hvac (hb.length_path_lt x) hsite.mem y

/-! ## Frames -/

def pageEnd (stop : Word) : Nat :=
  (stop.toNat + 4095) / 4096 * 4096

def Covers (start stop y : Word) : Prop :=
  start.toNat ≤ y.toNat ∧ y.toNat < pageEnd stop

theorem Inside.lt_pageEnd (h : Inside start stop x) : x.toNat < pageEnd stop := by
  have hlt := h.lt
  unfold pageEnd
  omega

theorem Covers.inside (h : Covers start stop x) (hx : x.toNat % 4096 = 0) :
    Inside start stop x := by
  obtain ⟨hle, hlt⟩ := h
  unfold pageEnd at hlt
  exact ⟨hle, by omega, hx⟩

theorem Inside.covers (h : Inside start stop x) (hc : Canonical.isCanonical x = true)
    (hy : Canonical.isCanonical y = true) (hp : pagePath y = pagePath x)
    (hs : start.toNat % 4096 = 0) : Covers start stop y := by
  have hpage := Canonical.pagePath_inj hy hc hp
  have hle := h.le
  have hlt := h.lt
  have ha := h.aligned
  unfold Covers pageEnd
  omega

/-- Only leaves in the range of one space may differ, and other spaces are untouched. -/
structure Framed (S : List (AddressSpace A)) (s : AddressSpace A) (start stop : Word)
    (m₀ m : Memory) : Prop where
  others : ∀ t ∈ S, t ≠ s → t.Untouched m₀ m
  own : ∀ y, Canonical.isCanonical y = true → ¬ Covers start stop y →
    s.leafAt m y = s.leafAt m₀ y

namespace Framed

theorem refl (S : List (AddressSpace A)) (s : AddressSpace A) (start stop : Word)
    (m : Memory) : Framed S s start stop m m :=
  ⟨fun t _ _ => .refl t m, fun _ _ _ => rfl⟩

theorem trans {m₁ m₂ : Memory} (h : Framed S s start stop m₀ m₁)
    (h' : Framed S s start stop m₁ m₂) : Framed S s start stop m₀ m₂ :=
  ⟨fun t ht hne => (h.others t ht hne).trans (h'.others t ht hne),
    fun y hy hn => (h'.own y hy hn).trans (h.own y hy hn)⟩

theorem leafAt_eq (h : Framed S s start stop m₀ m) (ht : t ∈ S)
    (hy : Canonical.isCanonical y = true) (hn : ¬ (t = s ∧ Covers start stop y)) :
    t.leafAt m y = t.leafAt m₀ y := by
  by_cases hts : t = s
  · subst hts
    exact h.own y hy fun hc => hn ⟨rfl, hc⟩
  · exact (h.others t ht hts).leafAt_eq y

end Framed

theorem Keeps.framed (hs : Scope S s plan start) (m₀ : Memory) :
    Keeps S s plan start (fun _ _ _ m => Framed S s start plan.stop m₀ m)
      (fun _ m => Framed S s start plan.stop m₀ m)
      (fun _ m => Framed S s start plan.stop m₀ m) where
  skip _ _ _ _ hj := hj
  visit _ _ _ _ hj := by
    rw [After, ite_self]
    exact hj
  write := by
    intro m a x r v w ha hsite _ _ _ hj
    rw [After, ite_self]
    refine ⟨fun t ht hne => (hj.others t ht hne).trans (hsite.untouched hsite.same_setEntry ht hne),
      fun y hy hn => ?_⟩
    rw [hsite.leafAt_setEntry rfl hsite.mem, if_neg, hj.own y hy hn]
    rintro ⟨-, hp⟩
    exact hn (ha.inside.covers (hs.accepted.isCanonical ha.inside.le ha.inside.lt) hy hp
      hs.accepted.aligned)
  abort _ _ _ hj := hj
  full _ _ _ _ _ hj := hj
  attach := by
    intro m l child a x r w hb ha hsite _ hv _ hnew hw hj
    refine ⟨fun t ht hne => (hj.others t ht hne).trans
      (hsite.untouched (hsite.same_attach hnew) ht hne), fun y hy hn => ?_⟩
    rw [leaves_attach hb hsite hv hnew hw, hj.own y hy hn]
  enter _ _ _ hj := hj
  leave _ _ _ _ _ hj := hj
  detach := by
    intro m l child a b x y r hb ha hsite hc _ _ hvac hj
    refine ⟨fun t ht hne => (hj.others t ht hne).trans (hsite.untouched hsite.same_detach ht hne),
      fun y hy hn => ?_⟩
    rw [leaves_detach hb hsite hc hvac, hj.own y hy hn]

/-! ## Page steps -/

def rewrite (f : Word → Word) (x : Word) (w : Option Word) : Word → Word := fun y =>
  match w with
  | some w => if pagePath y = pagePath x then w else f y
  | none => f y

structure IsPage (x : Word) : Prop where
  aligned : x.toNat % 4096 = 0
  canonical : Canonical.isCanonical x = true

theorem Accepted.isPage {start stop x : Word} (h : Accepted start stop)
    (hx : Inside start stop x) : IsPage x :=
  ⟨hx.aligned, h.isCanonical hx.le hx.lt⟩

theorem rewrite_eq {f : Word → Word} {x y w : Word} (hx : IsPage x) (hy : IsPage y) :
    rewrite f x (some w) y = if y = x then w else f y := by
  have hpage : pagePath y = pagePath x ↔ y = x := by
    constructor
    · intro h
      have hdiv := Canonical.pagePath_inj hy.canonical hx.canonical h
      have hxa := hx.aligned
      have hya := hy.aligned
      apply BitVec.eq_of_toNat_eq
      omega
    · rintro rfl
      rfl
  rw [rewrite, if_congr hpage rfl rfl]

theorem rewrite_eq_getD {f : Word → Word} {x y : Word} (hx : IsPage x) (hy : IsPage y)
    (e : Option Word) : rewrite f x e y = if y = x then e.getD (f x) else f y := by
  cases e with
  | some w => exact rewrite_eq hx hy
  | none =>
    split
    · next h =>
      subst h
      rfl
    · rfl

/-- The page at `x` is the only one that the next page adds. -/
theorem seen_step {start x y : Word} (hx : x.toNat % 4096 = 0) (hy : y.toNat % 4096 = 0)
    (hle : start.toNat ≤ x.toNat) : (start.toNat ≤ y.toNat ∧ y.toNat < x.toNat + 4096) ↔
      (y = x ∨ start.toNat ≤ y.toNat ∧ y.toNat < x.toNat) := by
  rw [← BitVec.toNat_inj]
  omega

/-- Each page of the range preserves `I`, which speaks of the address up to which pages were
seen, of the result and of the leaves. -/
structure PageSteps (A : Architecture) (plan : Plan α) (start : Word)
    (I : Nat → α → (Word → Word) → Prop) (K : α → (Word → Word) → Prop)
    (E : Stop → (Word → Word) → Prop) : Prop where
  skip : ∀ {x r f}, Inside start plan.stop x → plan.visitor.allocates = false → f x = 0 →
    I x.toNat r f → I (x.toNat + 4096) r f
  visit : ∀ {x r f v}, Inside start plan.stop x → (f x = 0 ∨ A.codec.IsLeaf (f x)) →
    (A.codec.isValid (f x) = true ∨ plan.visitor.allocates = true) →
    plan.visitor.visit x (f x) r = .ok v → I x.toNat r f →
    if v.proceed = true then I (x.toNat + 4096) v.result (rewrite f x v.entry)
    else K v.result (rewrite f x v.entry)
  abort : ∀ {x r f e}, Inside start plan.stop x → (f x = 0 ∨ A.codec.IsLeaf (f x)) →
    (A.codec.isValid (f x) = true ∨ plan.visitor.allocates = true) →
    plan.visitor.visit x (f x) r = .error e → I x.toNat r f → E (.abort e) f
  full : ∀ {x r f}, Inside start plan.stop x → plan.visitor.allocates = true → f x = 0 →
    I x.toNat r f → E (.refusal .outOfMemory) f

/-- The page of a cursor, or the end of the range. -/
def seen (stop x : Word) : Nat :=
  min ((x.toNat + 4095) / 4096 * 4096) (pageEnd stop)

theorem Inside.seen_eq (h : Inside start stop x) : seen stop x = x.toNat := by
  have ha := h.aligned
  have hlt := h.lt
  unfold seen pageEnd
  omega

theorem seen_of_stop_le (h : stop.toNat ≤ y.toNat) : seen stop y = pageEnd stop := by
  unfold seen pageEnd
  omega

theorem seen_of_lt (ha : y.toNat % 4096 = 0) (h : y.toNat < stop.toNat) :
    seen stop y = y.toNat := by
  unfold seen pageEnd
  omega

theorem Accepted.seen_start (h : Accepted start stop) : seen stop start = start.toNat := by
  have ha := h.aligned
  have hle := h.le
  unfold seen pageEnd
  omega

theorem Inside.seen_add (h : Inside start stop x) (hstop : stop.toNat ≤ 2 ^ 64 - 4096) :
    seen stop (x + pageSize) = x.toNat + 4096 := by
  have ha := h.aligned
  have hlt := h.lt
  rw [seen, (h.add hstop).2, pageEnd]
  omega

theorem Past.seen_eq {k : Nat} (h : Past stop k x y) (hk : 12 ≤ k) :
    seen stop y % 4096 = 0 ∧ (stop.toNat ≤ y.toNat ∧ seen stop y = pageEnd stop ∨
      seen stop y = y.toNat) := by
  by_cases hy : stop.toNat ≤ y.toNat
  · rw [seen_of_stop_le hy]
    exact ⟨by unfold pageEnd; omega, Or.inl ⟨hy, rfl⟩⟩
  · have ha := h.aligned hk (by omega)
    rw [seen_of_lt ha (by omega)]
    exact ⟨ha, Or.inr rfl⟩

theorem Inside.lt_seen (h : Inside start stop z) (hlt : z.toNat < x.toNat) :
    z.toNat < seen stop x := by
  have hend := h.lt_pageEnd
  unfold seen
  omega

variable {I : Nat → α → (Word → Word) → Prop} {K : α → (Word → Word) → Prop}
  {E : Stop → (Word → Word) → Prop}

/-- Skipped pages are stepped over one by one. -/
theorem PageSteps.skip_pages (hp : PageSteps A plan start I K E) {r : α} {f : Word → Word}
    (hal : plan.visitor.allocates = false) {b n : Nat}
    (hstart : start.toNat ≤ b) (hb : b % 4096 = 0)
    (hinvalid : ∀ z : Word, b ≤ z.toNat → z.toNat < b + 4096 * n → z.toNat % 4096 = 0 →
      z.toNat < plan.stop.toNat ∧ f z = 0)
    (hlt : b + 4096 * n < 2 ^ 64) (h : I b r f) : I (b + 4096 * n) r f := by
  induction n with
  | zero => simpa using h
  | succ n ih =>
    have hn := ih (fun z h₁ h₂ => hinvalid z h₁ (by omega)) (by omega)
    obtain ⟨z, hz⟩ : ∃ z : Word, z.toNat = b + 4096 * n :=
      ⟨.ofNatLT (b + 4096 * n) (by omega), BitVec.toNat_ofNatLT _ _⟩
    obtain ⟨hstop, hv⟩ := hinvalid z (by omega) (by omega) (by omega)
    have hnext := hp.skip ⟨by omega, hstop, by omega⟩ hal hv (hz.symm ▸ hn)
    rwa [hz, Nat.add_assoc, ← Nat.mul_succ] at hnext

theorem PageSteps.visited (hs : Scope S s plan start) (hp : PageSteps A plan start I K E)
    {r : α} {v : Visit α} (ha : At S s start plan.stop m .pte a x)
    (hval : A.codec.isValid (m.entry a (Level.pte.index x)) = true ∨ plan.visitor.allocates = true)
    (hv : plan.visitor.visit x (m.entry a (Level.pte.index x)) r = .ok v)
    (hj : I (seen plan.stop x) r (s.leafAt m)) :
    if v.proceed = true
    then I (seen plan.stop (x + pageSize)) v.result (rewrite (s.leafAt m) x v.entry)
    else K v.result (rewrite (s.leafAt m) x v.entry) := by
  rw [← ha.leafAt_eq] at hval hv
  rw [ha.inside.seen_eq] at hj
  rw [ha.inside.seen_add hs.accepted.stop_le]
  exact hp.visit ha.inside (ha.intact.leafAt_zero_or_leaf ha.mem x) hval hv hj

theorem Keeps.pages (hs : Scope S s plan start) (hp : PageSteps A plan start I K E) :
    Keeps S s plan start (fun _ x r m => I (seen plan.stop x) r (s.leafAt m))
      (fun r m => K r (s.leafAt m)) (fun e m => E e (s.leafAt m)) where
  skip := by
    intro m l a x y r ha hal hv hpast hj
    have hstop := hs.accepted.stop_le
    obtain ⟨haligned, hseen⟩ := hpast.seen_eq l.twelve_le_shift
    have hlt := ha.inside.lt
    have hle := hpast.le
    have hx := ha.inside.aligned
    rw [ha.inside.seen_eq] at hj
    have hge : x.toNat ≤ seen plan.stop y := by unfold seen pageEnd; omega
    have hbound : seen plan.stop y < 2 ^ 64 := by unfold seen pageEnd; omega
    obtain ⟨n, hn⟩ : ∃ n, seen plan.stop y = x.toNat + 4096 * n :=
      ⟨(seen plan.stop y - x.toNat) / 4096, by omega⟩
    rw [hn]
    apply hp.skip_pages hal ha.inside.le hx _ (by omega) hj
    intro z hxz hz hza
    have hzstop : z.toNat < plan.stop.toNat := by
      have : z.toNat < pageEnd plan.stop := by unfold seen at hn; omega
      unfold pageEnd at this
      omega
    refine ⟨hzstop, ha.leafAt_eq_zero hv (hpast.same_block hxz ?_)⟩
    omega
  visit := by
    intro m a x r v ha hval hv he hj
    have hnext := hp.visited hs ha hval hv hj
    rwa [he] at hnext
  write := by
    intro m a x r v w ha hsite hval hv he hj
    have hnext := hp.visited hs ha hval hv hj
    have hleaf : s.leafAt (m.setEntry a (Level.pte.index x) w) =
        rewrite (s.leafAt m) x (some w) := by
      funext y
      rw [hsite.leafAt_setEntry rfl ha.mem, rewrite]
      simp only [true_and]
      rfl
    rw [he] at hnext
    rwa [After, hleaf]
  abort := by
    intro m a x r e ha hval hv hj
    rw [← ha.leafAt_eq] at hval hv
    rw [ha.inside.seen_eq] at hj
    exact hp.abort ha.inside (ha.intact.leafAt_zero_or_leaf ha.mem x) hval hv hj
  full := by
    intro m l child a x r _ ha hal hv _ hj
    rw [ha.inside.seen_eq] at hj
    exact hp.full ha.inside hal (ha.leafAt_eq_zero hv rfl) hj
  attach := by
    intro m l child a x r w hb ha hsite _ hv _ hnew hw hj
    rwa [leaves_attach hb hsite hv hnew hw]
  enter _ _ _ hj := hj
  leave _ _ _ _ _ hj := hj
  detach := by
    intro m l child a b x y r hb ha hsite hc _ _ hvac hj
    rwa [leaves_detach hb hsite hc hvac]

end Walk

end Sandbox
