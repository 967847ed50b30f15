import Sandbox.Proofs.Walk.Tidy

/-! # Walks in the allocator's books

A walk that allocates nothing gives back the arrays that its space no longer owns, each of
them once. A walk that maps every page it comes to attaches an array where one is missing,
and gives none back: what it walked through holds the pages that it mapped.
-/

namespace Sandbox

namespace Walk

open Site (Vacant)

variable {α : Type} {A : Architecture} {S : List (AddressSpace A)} {s : AddressSpace A}
  {plan : Plan α} {start stop x : Word} {m m₀ : Memory} {p q : List (Fin 512)}
  {a b : PhysicalAddress} {i : Fin 512} {w : Word}

/-! ## Arrays given back -/

/-- The arrays of a list, which the space owned and owns no longer, were given back. -/
structure Released (s : AddressSpace A) (m₀ m : Memory) (freed : List PhysicalAddress) :
    Prop where
  nodup : freed.Nodup
  pool : m.pool = freed ++ m₀.pool
  frees : m.frees = m₀.frees + freed.length
  owns : ∀ q b, s.Owns m q b → s.Owns m₀ q b
  mem_iff : ∀ b, b ∈ freed ↔ (∃ q, s.Owns m₀ q b) ∧ ¬ ∃ q, s.Owns m q b

namespace Released

variable {freed : List PhysicalAddress}

theorem refl (s : AddressSpace A) (m : Memory) : Released s m m [] :=
  ⟨List.nodup_nil, rfl, rfl, fun _ _ ho => ho, fun b => by simp⟩

theorem trans {m₁ : Memory} {freed₁ : List PhysicalAddress} (h₁ : Released s m₀ m₁ freed₁)
    (h : Released s m₁ m freed) : Released s m₀ m (freed ++ freed₁) := by
  refine ⟨List.nodup_append.mpr ⟨h.nodup, h₁.nodup, ?_⟩, ?_, ?_,
    fun q b ho => h₁.owns q b (h.owns q b ho), fun b => ?_⟩
  · rintro b hb _ hb₁ rfl
    exact ((h₁.mem_iff b).mp hb₁).2 ((h.mem_iff b).mp hb).1
  · rw [h.pool, h₁.pool, List.append_assoc]
  · rw [h.frees, h₁.frees, List.length_append]
    omega
  · rw [List.mem_append, h.mem_iff, h₁.mem_iff]
    constructor
    · rintro (⟨⟨q, ho⟩, hgone⟩ | ⟨hold, hgone⟩)
      · exact ⟨⟨q, h₁.owns q b ho⟩, hgone⟩
      · exact ⟨hold, fun ⟨q, ho⟩ => hgone ⟨q, h.owns q b ho⟩⟩
    · rintro ⟨hold, hgone⟩
      by_cases hmid : ∃ q, s.Owns m₁ q b
      · exact Or.inl ⟨hmid, hgone⟩
      · exact Or.inr ⟨hold, hmid⟩

theorem setEntry (h : Released s m₀ m freed) (hsite : Site S m s p a i) (hp : p.length = 3) :
    Released s m₀ (m.setEntry a i w) freed := by
  have howns {q b} := hsite.owns_setEntry (q := q) (b := b) (w := w) hp hsite.mem
  refine ⟨h.nodup, h.pool, h.frees, fun q b ho => h.owns q b (howns.mp ho),
    fun b => ?_⟩
  rw [h.mem_iff]
  simp only [howns]

theorem detach (h : Released s m₀ m freed) (hsite : Site S m s p a i)
    (hb : s.arrayAt m (i :: p) = some b) (hvac : Vacant m A.codec b) (hp : p.length < 3) :
    Released s m₀ (m.detach a i b) (b :: freed) := by
  have howns {q d} := hsite.owns_detach (q := q) (d := d) hb hvac hsite.mem
  have hchild := hsite.owns_child hb hp
  refine ⟨List.nodup_cons.mpr ⟨fun hmem => ((h.mem_iff b).mp hmem).2 ⟨_, hchild⟩, h.nodup⟩, ?_, ?_,
    fun q d ho => h.owns q d (howns.mp ho).1, fun d => ?_⟩
  · rw [Memory.pool_detach, h.pool, List.cons_append]
  · rw [Memory.frees_detach, h.frees, List.length_cons, Nat.add_assoc]
  · rw [List.mem_cons]
    constructor
    · rintro (rfl | hd)
      · refine ⟨⟨_, h.owns _ _ hchild⟩, ?_⟩
        rintro ⟨q, ho⟩
        obtain ⟨ho, hne⟩ := howns.mp ho
        exact hne (hsite.intact.unique s hsite.mem s hsite.mem q _ d ho hchild)
      · obtain ⟨hold, hgone⟩ := (h.mem_iff d).mp hd
        exact ⟨hold, fun ⟨q, ho⟩ => hgone ⟨q, (howns.mp ho).1⟩⟩
    · rintro ⟨hold, hgone⟩
      by_cases hnow : ∃ q, s.Owns m q d
      · obtain ⟨q, ho⟩ := hnow
        -- The only array that was owned up to here is the one below the site.
        have hq : q = i :: p := by
          by_contra hne
          exact hgone ⟨q, howns.mpr ⟨ho, fun hc => hne hc.2⟩⟩
        subst hq
        exact Or.inl (Option.some.inj (ho.arrayAt_eq.symm.trans hb))
      · exact Or.inr ((h.mem_iff d).mpr ⟨hold, hnow⟩)

end Released

theorem Keeps.released (hal : plan.visitor.allocates = false) (m₀ : Memory) :
    Keeps S s plan start (fun _ _ _ m => ∃ freed, Released s m₀ m freed)
      (fun _ m => ∃ freed, Released s m₀ m freed)
      (fun _ m => ∃ freed, Released s m₀ m freed) where
  skip _ _ _ _ hj := hj
  visit _ _ _ _ hj := by
    rw [After, ite_self]
    exact hj
  write := by
    rintro m a x r v w - hsite - - - ⟨freed, h⟩
    rw [After, ite_self]
    exact ⟨freed, h.setEntry hsite rfl⟩
  abort _ _ _ hj := hj
  full _ _ _ _ _ hj := hj
  attach := by
    intro m l child a x r w _ _ _ hal'
    rw [hal] at hal'
    cases hal'
  enter _ _ _ hj := hj
  leave _ _ _ _ _ hj := hj
  detach := by
    rintro m l child a b x y r hb - hsite hc - - hvac ⟨freed, h⟩
    exact ⟨b :: freed, h.detach hsite (hc.arrayAt_below hb) hvac
      (hb.length_path_lt x)⟩

def Spared (s : AddressSpace A) (start stop : Word) (m₀ m : Memory) : Prop :=
  ∀ q b, ¬ Passed start stop q → s.Owns m₀ q b → s.Owns m q b

theorem Keeps.spared (m₀ : Memory) :
    Keeps S s plan start (fun _ _ _ m => Spared s start plan.stop m₀ m)
      (fun _ m => Spared s start plan.stop m₀ m) (fun _ m => Spared s start plan.stop m₀ m) where
  skip _ _ _ _ hj := hj
  visit _ _ _ _ hj := by
    rw [After, ite_self]
    exact hj
  write _ hsite _ _ _ hj := by
    rw [After, ite_self]
    exact fun q b hq ho => (hsite.owns_setEntry rfl hsite.mem).mpr (hj q b hq ho)
  abort _ _ _ hj := hj
  full _ _ _ _ _ hj := hj
  attach hb _ hsite _ hv _ hnew hw hj q b hq ho :=
    (hsite.owns_attach hnew (hb.length_path_lt _) hv (hw.child?_eq A.lawful)
      hsite.mem).mpr (Or.inl (hj q b hq ho))
  enter _ _ _ hj := hj
  leave _ _ _ _ _ hj := hj
  detach := by
    intro m l child a b x y r hb ha hsite hc _ _ hvac hj q d hq ho
    refine (hsite.owns_detach (hc.arrayAt_below hb) hvac hsite.mem).mpr
      ⟨hj q d hq ho, ?_⟩
    rintro ⟨-, rfl⟩
    exact hq ⟨child, x, ha.inside.le, ha.inside.lt, (hb.path_eq x).symm⟩

/-! ## Arrays attached -/

/-- The arrays at the end of the paths of a list are new, and those that were there are still
where they were. -/
structure Gained (s : AddressSpace A) (start stop : Word) (m₀ m : Memory)
    (new : List (List (Fin 512))) : Prop where
  nodup : new.Nodup
  allocations : m.allocations = m₀.allocations + new.length
  frees : m.frees = m₀.frees
  owns : ∀ q b, s.Owns m₀ q b → s.Owns m q b
  mem_iff : ∀ q, q ∈ new ↔ (∃ b, s.Owns m q b) ∧ ¬ ∃ b, s.Owns m₀ q b
  passed : ∀ q ∈ new, Passed start stop q

namespace Gained

variable {new : List (List (Fin 512))}

theorem refl (s : AddressSpace A) (start stop : Word) (m : Memory) :
    Gained s start stop m m [] :=
  ⟨List.nodup_nil, rfl, rfl, fun _ _ ho => ho, fun q => by simp, nofun⟩

theorem setEntry (h : Gained s start stop m₀ m new) (hsite : Site S m s p a i)
    (hp : p.length = 3) : Gained s start stop m₀ (m.setEntry a i w) new := by
  have howns {q b} := hsite.owns_setEntry (q := q) (b := b) (w := w) hp hsite.mem
  refine ⟨h.nodup, h.allocations, h.frees, fun q b ho => howns.mpr (h.owns q b ho), fun q => ?_,
    h.passed⟩
  rw [h.mem_iff]
  simp only [howns]

theorem attach (h : Gained s start stop m₀ m new) (hsite : Site S m s p a i)
    (hp : p.length < 3) (hnew : m.nextArray ∉ m.live)
    (hold : A.codec.isValid (m.entry a i) = false) (hw : A.codec.IsPointer w m.nextArray)
    (hpass : Passed start stop (i :: p)) :
    Gained s start stop m₀ (m.attach a i w) ((i :: p) :: new) := by
  have howns {q b} := hsite.owns_attach (q := q) (b := b) hnew hp hold (hw.child?_eq A.lawful)
    hsite.mem
  have hnone : ¬ ∃ b, s.Owns m (i :: p) b := by
    rintro ⟨b, -, -, harr⟩
    rw [AddressSpace.arrayAt_cons, hsite.owns.arrayAt_eq, Option.bind_some,
      EntryCodec.child?_eq_none hold] at harr
    cases harr
  refine ⟨List.nodup_cons.mpr ⟨fun hmem => hnone ((h.mem_iff _).mp hmem).1, h.nodup⟩, ?_, h.frees,
    fun q b ho => howns.mpr (Or.inl (h.owns q b ho)), fun q => ?_, ?_⟩
  · rw [Memory.allocations_attach, h.allocations, List.length_cons, Nat.add_assoc]
  · rw [List.mem_cons]
    constructor
    · rintro (rfl | hq)
      · exact ⟨⟨_, howns.mpr (Or.inr ⟨rfl, rfl, rfl⟩)⟩, fun ⟨b, ho⟩ => hnone ⟨b, h.owns _ b ho⟩⟩
      · obtain ⟨⟨b, ho⟩, hbefore⟩ := (h.mem_iff q).mp hq
        exact ⟨⟨b, howns.mpr (Or.inl ho)⟩, hbefore⟩
    · rintro ⟨⟨b, ho⟩, hbefore⟩
      rcases howns.mp ho with ho | ⟨-, rfl, -⟩
      · exact Or.inr ((h.mem_iff q).mpr ⟨⟨b, ho⟩, hbefore⟩)
      · exact Or.inl rfl
  · rintro q hq
    rcases List.mem_cons.mp hq with rfl | hq
    · exact hpass
    · exact h.passed q hq

end Gained

theorem not_vacant_of_valid {l : Level} (hc : At S s start stop m l b x)
    (hvalid : A.codec.isValid (s.leafAt m x) = true) : ¬ Vacant m A.codec b := by
  intro hvac
  rw [hc.leafAt_eq_zero (hvac _) rfl, A.lawful.isValid_zero] at hvalid
  cases hvalid

def Plan.keeping (plan : Plan α) : Plan α :=
  { plan with reclaim := false }

/-- A walk that leaves mapped pages behind, as `J` says, gives no array back. So it keeps what it
keeps if it is to give none back. -/
theorem Keeps.and_keeping {J J' : List (Fin 512) → Word → α → Memory → Prop}
    {K K' : α → Memory → Prop} {E E' : Stop → Memory → Prop} (hk : Keeps S s plan start J K E)
    (hmapped : ∀ {p x r m}, J p x r m → ∀ z, Inside start plan.stop z → z.toNat < x.toNat →
      A.codec.isValid (s.leafAt m z) = true) (hk' : Keeps S s plan.keeping start J' K' E') :
    Keeps S s plan start (fun p x r m => J p x r m ∧ J' p x r m) (fun r m => K r m ∧ K' r m)
      (fun e m => E e m ∧ E' e m) where
  skip ha hal hv hp hj := ⟨hk.skip ha hal hv hp hj.1, hk'.skip ha hal hv hp hj.2⟩
  visit ha hval hv he hj := .and (hk.visit ha hval hv he hj.1) (hk'.visit ha hval hv he hj.2)
  write ha hs hval hv he hj :=
    .and (hk.write ha hs hval hv he hj.1) (hk'.write ha hs hval hv he hj.2)
  abort ha hval hv hj := ⟨hk.abort ha hval hv hj.1, hk'.abort ha hval hv hj.2⟩
  full hb ha hal hv hf hj := ⟨hk.full hb ha hal hv hf hj.1, hk'.full hb ha hal hv hf hj.2⟩
  attach hb ha hs hal hv hr hn hw hj :=
    ⟨hk.attach hb ha hs hal hv hr hn hw hj.1, hk'.attach hb ha hs hal hv hr hn hw hj.2⟩
  enter hb ha hc hj := ⟨hk.enter hb ha hc hj.1, hk'.enter hb ha hc hj.2⟩
  leave hb ha hc hp hkeep hj :=
    ⟨hk.leave hb ha hc hp hkeep hj.1, hk'.leave hb ha hc hp (Or.inl rfl) hj.2⟩
  detach := by
    rintro m l child a b x y r - ha - hc - hpast hvac ⟨hj, -⟩
    exact absurd hvac (not_vacant_of_valid hc (hmapped hj x ha.inside (hpast.lt ha.inside)))

theorem Keeps.gained (m₀ : Memory) :
    Keeps S s plan.keeping start (fun _ _ _ m => ∃ new, Gained s start plan.stop m₀ m new)
      (fun _ m => ∃ new, Gained s start plan.stop m₀ m new)
      (fun _ m => ∃ new, Gained s start plan.stop m₀ m new) where
  skip _ _ _ _ hj := hj
  visit _ _ _ _ hj := by
    rw [After, ite_self]
    exact hj
  write := by
    rintro m a x r v w - hsite - - - ⟨new, h⟩
    rw [After, ite_self]
    exact ⟨new, h.setEntry hsite rfl⟩
  abort _ _ _ hj := hj
  full _ _ _ _ _ hj := hj
  attach := by
    rintro m l child a x r w hb ha hsite - hv - hn hw ⟨new, h⟩
    refine ⟨_, h.attach hsite (hb.length_path_lt x) hn hv hw ?_⟩
    exact ⟨child, x, ha.inside.le, ha.inside.lt, (hb.path_eq x).symm⟩
  enter _ _ _ hj := hj
  leave _ _ _ _ _ hj := hj
  detach _ _ _ _ hreclaim := by cases hreclaim

/-! ## Want of memory -/

/-- A walk that stops for want of memory is at the limit, on its way to an array that the space
lacks. -/
def Starved (s : AddressSpace A) (start stop : Word) (e : Stop) (m : Memory) : Prop :=
  e = .refusal .outOfMemory →
    m.limitReached = true ∧ ∃ q, Passed start stop q ∧ ¬ ∃ b, s.Owns m q b

theorem Keeps.starved : Keeps S s plan start (fun _ _ _ _ => True) (fun _ _ => True)
    (Starved s start plan.stop) where
  skip _ _ _ _ _ := trivial
  visit _ _ _ _ _ := by
    rw [After, ite_self]
    trivial
  write _ _ _ _ _ _ := by
    rw [After, ite_self]
    trivial
  abort _ _ _ _ := nofun
  full := by
    intro m l child a x r hb ha _ hv hlimit _ _
    refine ⟨hlimit, child.path x, ⟨child, x, ha.inside.le, ha.inside.lt, rfl⟩, ?_⟩
    rintro ⟨b, ho⟩
    have harr := ho.arrayAt_eq
    rw [hb.path_eq, AddressSpace.arrayAt_cons, ha.arrayAt_eq, Option.bind_some,
      EntryCodec.child?_eq_none hv] at harr
    cases harr
  attach _ _ _ _ _ _ _ _ _ := trivial
  enter _ _ _ _ := trivial
  leave _ _ _ _ _ _ := trivial
  detach _ _ _ _ _ _ _ _ := trivial

end Walk

end Sandbox
