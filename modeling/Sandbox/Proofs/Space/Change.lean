import Sandbox.Proofs.Space.Lookup
import Sandbox.Proofs.Walk.Books

/-! # Changes of a space

Mapping, unmapping and changing permissions keep the memory intact however they end, and
they change leaves of their own range only. Apart from the checks made before the walk,
only a lack of memory or a frame that does not fit stops them.
-/

namespace Sandbox

inductive Change
  | map (a : VirtualAddress) (length : Word) (o : MapOptions) (physical : PhysicalAddress)
  | unmap (a : VirtualAddress) (length : Word)
  | protect (a : VirtualAddress) (length : Word) (o : MapOptions)

/-- The abort shows a broken tree. -/
def Abort.Broken : Abort → Prop
  | .unexpectedLeaf .. | .entryInUse | .zeroTable | .noArray _ | .notLive | .rootInUse _ => True
  | _ => False

def Stop.Benign (e : Stop) : Prop :=
  ∀ a, e = .abort a → ¬ a.Broken

theorem Stop.benign_abort {a : Abort} (h : ¬ a.Broken) : (Stop.abort a).Benign := by
  rintro b hb
  cases hb
  exact h

theorem Stop.benign_refusal (r : Refusal) : (Stop.refusal r).Benign := by
  rintro b hb
  cases hb

theorem require_eq_error {p : Prop} [Decidable p] {e f : Abort} (h : require p e = .error f) :
    f = e := by
  unfold require at h
  split at h
  · cases h
  · exact (Except.error.inj h).symm

namespace Walk

theorem accept_benign {start stop : Word} {e : Abort} (h : accept start stop = .error e) :
    ¬ e.Broken := by
  unfold accept require at h
  split at h
  · split at h
    · split at h
      · split at h
        · cases h
        · cases h; exact id
      · cases h; exact id
    · cases h; exact id
  · cases h; exact id

theorem pageEnd_maxEnd : pageEnd maxEnd = 2 ^ 64 - 4096 := rfl

end Walk

namespace AddressSpace

variable {A : Architecture} {S : List (AddressSpace A)} {s : AddressSpace A} {m m₀ : Memory}
  {a : VirtualAddress} {length start stop : Word} {α : Type}

/-! ## Bounds -/

theorem bounds_eq_ok (h : bounds a length = .ok (start, stop)) :
    start = a.word ∧ stop.toNat = a.word.toNat + length.toNat := by
  unfold bounds orAbort at h
  rw [Word.add?_eq] at h
  by_cases hlt : a.word.toNat + length.toNat < 2 ^ 64
  · rw [if_pos hlt] at h
    obtain ⟨rfl, rfl⟩ := Prod.mk.inj (Except.ok.inj h)
    exact ⟨rfl, by rw [BitVec.toNat_add, Nat.mod_eq_of_lt hlt]⟩
  · rw [if_neg hlt] at h
    cases h

theorem bounds_eq_error {e : Abort} (h : bounds a length = .error e) :
    e = .rangeOverflow a length := by
  unfold bounds orAbort at h
  split at h
  · cases h
  · exact (Except.error.inj h).symm

structure Mutable (s : AddressSpace A) (a : VirtualAddress) (length start stop : Word) :
    Prop where
  frozen : s.frozen = false
  start_eq : start = a.word
  stop_eq : stop.toNat = a.word.toNat + length.toNat
  stop_le : ∀ u, s.upper = some u → stop.toNat ≤ u.start.toNat

theorem mutableBounds_cases (s : AddressSpace A) (a : VirtualAddress) (length : Word) :
    (∃ start stop, s.mutableBounds a length = .ok (start, stop) ∧
      s.Mutable a length start stop) ∨
    ∃ e, s.mutableBounds a length = .error e ∧ ¬ e.Broken := by
  unfold mutableBounds
  cases hf : require (¬ s.frozen = true) (.frozen s.owner) with
  | error e =>
    refine Or.inr ⟨e, rfl, ?_⟩
    rw [require_eq_error hf]
    exact id
  | ok x =>
    have hfrozen := Bool.eq_false_iff.mpr (require_eq_ok_iff.mp hf)
    cases hb : bounds a length with
    | error e =>
      refine Or.inr ⟨e, rfl, ?_⟩
      rw [bounds_eq_error hb]
      exact id
    | ok r =>
      obtain ⟨start, stop⟩ := r
      obtain ⟨hstart, hstop⟩ := bounds_eq_ok hb
      cases hu : s.upper with
      | none => exact Or.inl ⟨start, stop, rfl, hfrozen, hstart, hstop, fun u h => by
          rw [hu] at h; cases h⟩
      | some u =>
        cases hr : require (stop ≤ u.start) (.reachesUpper start stop u.start) with
        | error e =>
          refine Or.inr ⟨e, ?_, ?_⟩
          · change (do require (stop ≤ u.start) (.reachesUpper start stop u.start)
                       pure (start, stop) : Except Abort _) = _
            rw [hr]
            rfl
          · rw [require_eq_error hr]
            exact id
        | ok x =>
          refine Or.inl ⟨start, stop, ?_, hfrozen, hstart, hstop, fun u' h => ?_⟩
          · change (do require (stop ≤ u.start) (.reachesUpper start stop u.start)
                       pure (start, stop) : Except Abort _) = _
            rw [hr]
            rfl
          · rw [hu] at h
            obtain rfl := Option.some.inj h
            exact require_eq_ok_iff.mp hr

theorem WellSplit.ownsSlot_iff (h : s.WellSplit) {x : Word}
    (hx : Canonical.isCanonical x = true) : s.OwnsSlot (Level.pgd.index x) ↔
      ∀ u, s.upper = some u → x.toNat < u.start.toNat := by
  apply forall₂_congr
  intro u hu
  obtain ⟨haligned, hc⟩ := h u hu
  rw [Canonical.isCanonical_iff] at hx hc
  have hxlt := x.isLt
  have hult := u.start.isLt
  rw [Fin.lt_def, Level.index_val, Level.index_val]
  simp only [Level.shift]
  omega

theorem WellSplit.editable (h : s.WellSplit) (hun : Unshared S s) (ha : Walk.Accepted start stop)
    (hle : ∀ u, s.upper = some u → stop.toNat ≤ u.start.toNat) :
    Walk.Editable S s start stop :=
  ⟨hun, fun _ hx => (h.ownsSlot_iff (ha.isCanonical hx.le hx.lt)).mpr fun u hu =>
    Nat.lt_of_lt_of_le hx.lt (hle u hu)⟩

/-! ## Walks that change a space -/

theorem framed_weaken (ha : Walk.Accepted start stop) (h : Walk.Framed S s start stop m₀ m) :
    Walk.Framed S s 0 maxEnd m₀ m := by
  refine ⟨h.others, fun y hy hn => h.own y hy ?_⟩
  rintro ⟨hlow, hhigh⟩
  have hstop := ha.stop_le
  refine hn ⟨Nat.zero_le _, ?_⟩
  rw [Walk.pageEnd_maxEnd]
  rw [Walk.pageEnd] at hhigh
  omega

/-- What a walk leaves behind that allocates nothing and releases what becomes empty. -/
structure Pruned (S : List (AddressSpace A)) (s : AddressSpace A) (start stop : Word)
    (m₀ m : Memory) : Prop where
  intact : Intact S m
  framed : Walk.Framed S s start stop m₀ m
  released : ∃ freed, Walk.Released s m₀ m freed
  spared : Walk.Spared s start stop m₀ m
  swept : Walk.Tidy s m (Walk.Passed start stop)
  tidy : Walk.Tidy s m₀ (fun _ => True) → Walk.Tidy s m fun _ => True

/-- The triple of a walk that allocates nothing, from what it does to a page. It returns. -/
theorem prune_triple {v : Visitor α} {I : Nat → α → (Word → Word) → Prop} {r : α} (hs : s ∈ S)
    (he : Walk.Editable S s start stop) (ha : Walk.Accepted start stop)
    (hal : v.allocates = false)
    (hleaf : ∀ x w r u w', v.visit x w r = .ok u → u.entry = some w' →
      w' = 0 ∨ A.codec.IsLeaf w')
    (hp : Walk.PageSteps A ⟨A.codec, v, true, stop⟩ start I (fun _ _ => False)
      (fun _ _ => False)) (m₀ : Memory) :
    Triple A.codec (fun m => m = m₀ ∧ Intact S m ∧ I start.toNat r (s.leafAt m))
      (s.change v start stop r)
      (fun r' m => Pruned S s start stop m₀ m ∧ I (Walk.pageEnd stop) r' (s.leafAt m))
      (fun _ _ => False) := by
  have hscope : Walk.Scope S s ⟨A.codec, v, true, stop⟩ start :=
    ⟨rfl, hs, ha, hleaf, Or.inr he⟩
  have hkeep := ((Walk.Keeps.framed hscope m₀).and (Walk.Keeps.tidy hscope rfl hal
    fun _ => Walk.Tidy s m₀ fun _ => True)).and
      (((Walk.Keeps.released hal m₀).and (Walk.Keeps.spared m₀)).and (Walk.Keeps.pages hscope hp))
  refine (Walk.range_triple hscope hkeep r).conseq ?_ ?_ ?_
  · rintro m ⟨rfl, h, hi⟩
    refine ⟨h, ⟨.refl S s start stop m, ?_⟩, ⟨⟨[], .refl s m⟩, fun _ _ _ ho => ho⟩,
      ha.seen_start.symm ▸ hi⟩
    rintro q b hq ho ⟨ht | ⟨l, z, hz, hz', -⟩, -⟩
    · exact ht q b hq ho trivial
    · omega
  · rintro r' m ⟨h, ⟨y, (hy : stop.toNat ≤ y.toNat), ⟨hf, ht⟩, ⟨hr, hsp⟩, hi⟩ | ⟨-, -, hk⟩⟩
    · rw [Walk.seen_of_stop_le hy] at hi
      have htidy (q b) (hq : q ≠ []) (ho : s.Owns m q b)
          (h : Walk.Tidy s m₀ (fun _ => True) ∨ Walk.Passed start y q) :=
        ht q b hq ho ⟨h, fun hsuf => hq (List.suffix_nil.mp hsuf)⟩
      refine ⟨⟨h, hf, hr, hsp, ?_, fun hold q b hq ho _ => htidy q b hq ho (Or.inl hold)⟩, hi⟩
      rintro q b hq ho ⟨l, z, hz, hz', hqz⟩
      exact htidy q b hq ho (Or.inr ⟨l, z, hz, by omega, hqz⟩)
    · exact hk.elim
  · rintro e m ⟨-, -, -, hf⟩
    exact hf

/-! ## Mapping -/

/-- Between `start` and `n` pages are mapped, and all others are as they were. -/
def MappedUpTo (c : EntryCodec) (o : MapOptions) (distance start : Word) (f₀ : Word → Word)
    (n : Nat) (f : Word → Word) : Prop :=
  ∀ y, Walk.IsPage y → if start.toNat ≤ y.toNat ∧ y.toNat < n
    then c.IsLeafOf (f y) ⟨y + distance⟩ o else f y = f₀ y

/-- A walk that maps stops half way, for want of memory at a page that is not mapped, or at a
frame that is refused. -/
def MapFailed (c : EntryCodec) (o : MapOptions) (distance start stop : Word)
    (f₀ : Word → Word) (e : Stop) (f : Word → Word) : Prop :=
  ∃ x, Walk.Inside start stop x ∧ MappedUpTo c o distance start f₀ x.toNat f ∧
    (e = .refusal .outOfMemory ∧ f x = 0 ∨
      ∃ b, e = .abort b ∧ c.leafWith (c.bits? o) ⟨x + distance⟩ = .error b)

theorem MapFailed.benign {c : EntryCodec} {o : MapOptions} {distance : Word}
    {f₀ f : Word → Word} {e : Stop} (h : MapFailed c o distance start stop f₀ e f) :
    e.Benign := by
  obtain ⟨x, -, -, ⟨rfl, -⟩ | ⟨b, rfl, hb⟩⟩ := h
  · exact Stop.benign_refusal _
  · rcases EntryCodec.leafWith_eq_error hb with rfl | rfl
    · exact Stop.benign_abort id
    · exact Stop.benign_abort id

theorem map_visit {o : MapOptions} (ho : o.access.any = true) {physical : PhysicalAddress}
    {x w : Word} {r : Bool} {u : Visit Bool}
    (hv : (Visitor.map A.codec start physical o).visit x w r = .ok u) :
    ∃ leaf, A.codec.IsLeafOf leaf ⟨x + (physical.word - start)⟩ o ∧
      u = { entry := some leaf
            result := r || (A.codec.isValid w &&
              (A.codec.address w != ⟨x + (physical.word - start)⟩ || A.codec.options w != o)) } := by
  simp only [Visitor.map] at hv
  cases hl : A.codec.leafWith (A.codec.bits? o) ⟨x + (physical.word - start)⟩ with
  | error e => rw [hl] at hv; cases hv
  | ok leaf =>
    rw [hl] at hv
    exact ⟨leaf, EntryCodec.leafWith_eq_ok hl ho, (Except.ok.inj hv).symm⟩

theorem map_pages (ha : Walk.Accepted start stop) {o : MapOptions} (ho : o.access.any = true)
    (physical : PhysicalAddress) (f₀ : Word → Word) :
    Walk.PageSteps A ⟨A.codec, Visitor.map A.codec start physical o, true, stop⟩ start
      (fun n _ f => MappedUpTo A.codec o (physical.word - start) start f₀ n f)
      (fun _ _ => False)
      (fun e f => MapFailed A.codec o (physical.word - start) start stop f₀ e f) where
  skip _ hal := by cases hal
  visit := by
    rintro x r f v hx - - hv h
    obtain ⟨leaf, hleaf, rfl⟩ := map_visit ho hv
    intro y hy
    dsimp only
    rw [Walk.rewrite_eq (ha.isPage hx) hy,
      if_congr (Walk.seen_step hx.aligned hy.aligned hx.le) rfl rfl]
    by_cases hpage : y = x
    · subst hpage
      rwa [if_pos rfl, if_pos (Or.inl rfl)]
    · rw [if_neg hpage, if_congr (or_iff_right hpage) rfl rfl]
      exact h y hy
  abort := by
    rintro x r f e hx - - hv h
    refine ⟨x, hx, h, Or.inr ⟨e, rfl, ?_⟩⟩
    simp only [Visitor.map] at hv
    cases hl : A.codec.leafWith (A.codec.bits? o) ⟨x + (physical.word - start)⟩ with
    | ok leaf => rw [hl] at hv; cases hv
    | error e' =>
      rw [hl] at hv
      obtain rfl := Except.error.inj hv
      rfl
  full := by
    rintro x r f hx - h0 h
    exact ⟨x, hx, h, Or.inl ⟨rfl, h0⟩⟩

theorem map_leaves {o : MapOptions} (ho : o.access.any = true) {physical : PhysicalAddress}
    {x w : Word} {r : Bool} {u : Visit Bool} {w' : Word}
    (hv : (Visitor.map A.codec start physical o).visit x w r = .ok u)
    (hw : u.entry = some w') : w' = 0 ∨ A.codec.IsLeaf w' := by
  obtain ⟨leaf, hleaf, rfl⟩ := map_visit ho hv
  obtain rfl := Option.some.inj hw
  exact Or.inr ⟨_, o, hleaf⟩

structure Kept (S : List (AddressSpace A)) (s : AddressSpace A) (m₀ m : Memory) : Prop where
  intact : Intact S m
  framed : Walk.Framed S s 0 maxEnd m₀ m

theorem Kept.refl (s : AddressSpace A) (h : Intact S m) : Kept S s m m :=
  ⟨h, .refl S s 0 maxEnd m⟩

structure Mapped (S : List (AddressSpace A)) (s : AddressSpace A) (a : VirtualAddress)
    (length : Word) (o : MapOptions) (physical : PhysicalAddress) (m₀ m : Memory) : Prop where
  intact : Intact S m
  range : ∃ stop, stop.toNat = a.word.toNat + length.toNat ∧ Walk.Accepted a.word stop ∧
    Walk.Framed S s a.word stop m₀ m ∧ MappedUpTo A.codec o.normalized
      (physical.word - a.word) a.word (s.leafAt m₀) (Walk.pageEnd stop) (s.leafAt m) ∧
    (∃ new, Walk.Gained s a.word stop m₀ m new) ∧ Walk.Editable S s a.word stop
  bound : physical.word.toNat + (length.toNat - 1) < 2 ^ 64

theorem Pruned.kept (h : Pruned S s start stop m₀ m) (ha : Walk.Accepted start stop) :
    Kept S s m₀ m :=
  ⟨h.intact, framed_weaken ha h.framed⟩

theorem Mapped.kept {o : MapOptions} {physical : PhysicalAddress}
    (h : Mapped S s a length o physical m₀ m) : Kept S s m₀ m := by
  obtain ⟨stop, -, ha, hf, -⟩ := h.range
  exact ⟨h.intact, framed_weaken ha hf⟩

theorem change_rejected {v : Visitor α} {r : α} {e : Abort}
    (he : Walk.accept start stop = .error e) (m₀ : Memory) {Q : α → Memory → Prop} :
    Triple A.codec (fun m => m = m₀ ∧ Intact S m) (s.change v start stop r) Q
      (fun e m => Kept S s m₀ m ∧ e.Benign) := by
  unfold change
  rw [Walk.range_eq_throw he]
  apply Triple.throw
  rintro m ⟨rfl, h⟩
  exact ⟨.refl s h, Stop.benign_abort (Walk.accept_benign he)⟩

theorem throw_triple {e : Abort} (he : ¬ e.Broken) (m₀ : Memory) {Q : α → Memory → Prop} :
    Triple A.codec (fun m => m = m₀ ∧ Intact S m) (throw (.abort e)) Q
      (fun e m => Kept S s m₀ m ∧ e.Benign) := by
  apply Triple.throw
  rintro m ⟨rfl, h⟩
  exact ⟨.refl s h, Stop.benign_abort he⟩

/-- The walk that maps a range attaches what is missing, and releases nothing. -/
theorem extend_triple (hs : s ∈ S) (he : Walk.Editable S s start stop)
    (ha : Walk.Accepted start stop) {o : MapOptions} (ho : o.access.any = true)
    (physical : PhysicalAddress) (m₀ : Memory) :
    Triple A.codec (fun m => m = m₀ ∧ Intact S m)
      (s.change (Visitor.map A.codec start physical o) start stop false)
      (fun _ m => Intact S m ∧ Walk.Framed S s start stop m₀ m ∧
        MappedUpTo A.codec o (physical.word - start) start (s.leafAt m₀) (Walk.pageEnd stop)
          (s.leafAt m) ∧ ∃ new, Walk.Gained s start stop m₀ m new)
      (fun e m => Intact S m ∧ Walk.Framed S s start stop m₀ m ∧
        MapFailed A.codec o (physical.word - start) start stop (s.leafAt m₀) e (s.leafAt m) ∧
        (∃ new, Walk.Gained s start stop m₀ m new) ∧ Walk.Starved s start stop e m) := by
  have hscope : Walk.Scope S s ⟨A.codec, Visitor.map A.codec start physical o, true, stop⟩
      start := ⟨rfl, hs, ha, fun _ _ _ _ _ => map_leaves ho, Or.inr he⟩
  have hmap := ((Walk.Keeps.framed hscope m₀).and (Walk.Keeps.pages hscope
    (map_pages ha ho physical (s.leafAt m₀)))).and_keeping (fun {p x r m} hj z hz hzx => by
      have hmapped := hj.2 z (ha.isPage hz)
      rw [if_pos ⟨hz.le, hz.lt_seen hzx⟩] at hmapped
      exact hmapped.isValid A.lawful) (Walk.Keeps.gained m₀)
  refine (Walk.range_triple hscope (hmap.and Walk.Keeps.starved) false).conseq ?_ ?_ ?_
  · rintro m ⟨rfl, h⟩
    refine ⟨h, ⟨⟨.refl S s start stop m, fun y _ => ?_⟩, [], .refl s start stop m⟩, trivial⟩
    dsimp only
    rw [ha.seen_start, if_neg (by omega)]
  · rintro r m ⟨h, ⟨y, hy, ⟨⟨hf, hi⟩, hg⟩, -⟩ | ⟨⟨⟨-, hk⟩, -⟩, -⟩⟩
    · rw [Walk.seen_of_stop_le hy] at hi
      exact ⟨h, hf, hi, hg⟩
    · exact hk.elim
  · rintro e m ⟨h, ⟨⟨hf, he⟩, hg⟩, hs⟩
    exact ⟨h, hf, he, hg, hs⟩

theorem map_triple (hs : s ∈ S) (hsplit : s.WellSplit) (hun : Unshared S s) {o : MapOptions}
    (ho : o.access.any = true) (physical : PhysicalAddress) (m₀ : Memory) :
    Triple A.codec (fun m => m = m₀ ∧ Intact S m) (s.map a length o physical)
      (fun _ m => Mapped S s a length o physical m₀ m)
      (fun e m => Kept S s m₀ m ∧ e.Benign) := by
  unfold map
  obtain ⟨start, stop, hb, hm⟩ | ⟨e, hb, he⟩ := s.mutableBounds_cases a length
  · rw [hb, Action.lift_ok_bind]
    dsimp only
    rw [if_pos ho]
    cases hr : require (physical.word.toNat + (length.toNat - 1) ≤ (BitVec.allOnes 64).toNat)
        (.physicalOverflow physical length) with
    | error e =>
      rw [Action.lift_error_bind]
      rw [require_eq_error hr]
      exact throw_triple id m₀
    | ok u =>
      rw [Action.lift_ok_bind]
      obtain rfl := hm.start_eq
      cases hacc : Walk.accept a.word stop with
      | error e => exact change_rejected hacc m₀
      | ok u =>
        have ha := Walk.accept_eq_ok_iff.mp hacc
        have hnorm := MapOptions.any_normalized ho
        have he := hsplit.editable hun ha hm.stop_le
        refine (extend_triple hs he ha hnorm physical m₀).conseq
          (fun _ hm => hm) ?_ ?_
        · rintro r m ⟨h, hf, hp, hg⟩
          have hfit := require_eq_ok_iff.mp hr
          rw [BitVec.toNat_allOnes] at hfit
          exact ⟨h, ⟨stop, hm.stop_eq, ha, hf, hp, hg, he⟩, Nat.lt_of_le_pred (Nat.two_pow_pos 64) hfit⟩
        · rintro e m ⟨h, hf, hfail, -⟩
          exact ⟨⟨h, framed_weaken ha hf⟩, hfail.benign⟩
  · rw [hb, Action.lift_error_bind]
    exact throw_triple he m₀

/-! ## Unmapping and changing permissions -/

def ClearedUpTo (start : Word) (f₀ : Word → Word) (n : Nat) (f : Word → Word) : Prop :=
  ∀ y, Walk.IsPage y → f y = if start.toNat ≤ y.toNat ∧ y.toNat < n then 0 else f₀ y

theorem unmap_pages (ha : Walk.Accepted start stop) (f₀ : Word → Word) :
    Walk.PageSteps A ⟨A.codec, Visitor.unmap, true, stop⟩ start
      (fun n _ f => ClearedUpTo start f₀ n f) (fun _ _ => False) (fun _ _ => False) where
  skip := by
    rintro x r f hx - h0 h y hy
    rw [if_congr (Walk.seen_step hx.aligned hy.aligned hx.le) rfl rfl]
    by_cases hpage : y = x
    · rw [if_pos (Or.inl hpage), hpage, h0]
    · rw [if_congr (or_iff_right hpage) rfl rfl, h y hy]
  visit := by
    rintro x r f v hx - - hv h
    cases hv
    intro y hy
    rw [Walk.rewrite_eq (ha.isPage hx) hy,
      if_congr (Walk.seen_step hx.aligned hy.aligned hx.le) rfl rfl]
    by_cases hpage : y = x
    · rw [if_pos hpage, if_pos (Or.inl hpage)]
    · rw [if_neg hpage, if_congr (or_iff_right hpage) rfl rfl, h y hy]
  abort := by
    rintro x r f e - - - hv
    cases hv
  full := by
    rintro x r f - hal
    cases hal

theorem unmap_leaves {x w : Word} {r : Bool} {u : Visit Bool} {w' : Word}
    (hv : Visitor.unmap.visit x w r = .ok u) (hw : u.entry = some w') :
    w' = 0 ∨ A.codec.IsLeaf w' := by
  cases hv
  exact Or.inl (Option.some.inj hw).symm

theorem clear_walk_triple (hs : s ∈ S) (he : Walk.Editable S s start stop)
    (ha : Walk.Accepted start stop) (m₀ : Memory) :
    Triple A.codec (fun m => m = m₀ ∧ Intact S m) (s.change Visitor.unmap start stop false)
      (fun _ m => Pruned S s start stop m₀ m ∧
        ClearedUpTo start (s.leafAt m₀) (Walk.pageEnd stop) (s.leafAt m))
      (fun _ _ => False) := by
  apply (prune_triple hs he ha rfl (fun _ _ _ _ _ => unmap_leaves)
    (unmap_pages ha (s.leafAt m₀)) m₀).pre
  rintro m ⟨rfl, h⟩
  exact ⟨rfl, h, fun y _ => by rw [if_neg (by omega)]⟩

theorem unmap_triple (hs : s ∈ S) (hsplit : s.WellSplit) (hun : Unshared S s) (m₀ : Memory) :
    Triple A.codec (fun m => m = m₀ ∧ Intact S m) (s.unmap a length)
      (fun _ m => Kept S s m₀ m) (fun e m => Kept S s m₀ m ∧ e.Benign) := by
  unfold unmap
  obtain ⟨start, stop, hb, hm⟩ | ⟨e, hb, he⟩ := s.mutableBounds_cases a length
  · rw [hb, Action.lift_ok_bind]
    dsimp only
    cases hacc : Walk.accept start stop with
    | error e => exact change_rejected hacc m₀
    | ok u =>
      have ha := Walk.accept_eq_ok_iff.mp hacc
      exact ((clear_walk_triple hs (hsplit.editable hun ha hm.stop_le) ha m₀).post
        fun _ _ h => h.1.kept ha).error fun _ _ hf => hf.elim
  · rw [hb, Action.lift_error_bind]
    exact throw_triple he m₀

theorem leafWith_of_fits {o : MapOptions} (ho : o.access.any = true) {b : PhysicalAddress}
    (hb : b.isPageAligned = true) (hf : A.codec.Fits b) :
    ∃ w, A.codec.leafWith (A.codec.bits? o) b = .ok w ∧ A.codec.IsLeafOf w b o := by
  have hcompose : A.codec.compose b (A.codec.leafBits o) = .ok _ := EntryCodec.compose_of_fits hf
  refine ⟨_, ?_, ho, hb, hcompose⟩
  unfold EntryCodec.leafWith EntryCodec.bits? require
  rw [if_pos hb, if_pos ho]
  exact hcompose

/-- The second word is a leaf if the first is one, at the same place with options `o`. -/
structure Regranted (c : EntryCodec) (o : MapOptions) (w₀ w : Word) : Prop where
  isValid_eq : c.isValid w = c.isValid w₀
  address_eq : c.isValid w₀ = true → c.address w = c.address w₀
  options_eq : c.isValid w₀ = true → c.options w = o

theorem protect_visit {o : MapOptions} (ho : o.access.any = true) {w : Word}
    (hw : A.codec.IsLeaf w) (x : Word) (r : Bool) :
    ∃ u, (Visitor.protect A.codec o.normalized).visit x w r = .ok u ∧ u.proceed = true ∧
      Regranted A.codec o.normalized w (u.entry.getD w) := by
  obtain ⟨b, o', hl⟩ := hw
  by_cases hopt : A.codec.options w = o.normalized
  · refine ⟨{ result := r }, ?_, rfl, rfl, fun _ => rfl, fun _ => hopt⟩
    simp only [Visitor.protect, if_pos hopt]
    rfl
  · obtain ⟨leaf, hleaf, hof⟩ := leafWith_of_fits (MapOptions.any_normalized ho) hl.2.1
      (EntryCodec.compose_eq_ok_iff.mp hl.2.2).1
    rw [← hl.address_eq A.lawful] at hleaf hof
    refine ⟨{ entry := some leaf, result := true }, ?_, rfl, ?_⟩
    · simp only [Visitor.protect, if_neg hopt, hleaf]
      rfl
    · refine ⟨?_, fun _ => hof.address_eq A.lawful, fun _ => ?_⟩
      · rw [hl.isValid A.lawful]
        exact hof.isValid A.lawful
      · rw [← MapOptions.normalized_normalized o]
        exact hof.options_eq A.lawful

theorem protect_cases {o : MapOptions} (ho : o.access.any = true) {x w : Word} {r : Bool}
    {u : Visit Bool} (hv : (Visitor.protect A.codec o).visit x w r = .ok u) :
    A.codec.options w = o ∧ u = { result := r } ∨
      A.codec.options w ≠ o ∧ ∃ leaf, A.codec.IsLeafOf leaf (A.codec.address w) o ∧
        u = { entry := some leaf, result := true } := by
  simp only [Visitor.protect] at hv
  split at hv
  · next heq => exact Or.inl ⟨heq, (Except.ok.inj hv).symm⟩
  · next hne =>
    cases hl : A.codec.leafWith (A.codec.bits? o) (A.codec.address w) with
    | error e =>
      rw [hl] at hv
      cases hv
    | ok leaf =>
      rw [hl] at hv
      exact Or.inr ⟨hne, leaf, EntryCodec.leafWith_eq_ok hl ho, (Except.ok.inj hv).symm⟩

theorem isLeaf_of_visited {w : Word} (h : w = 0 ∨ A.codec.IsLeaf w)
    (hval : A.codec.isValid w = true ∨ false = true) : A.codec.IsLeaf w := by
  refine h.resolve_left fun h0 => ?_
  have hvalid := hval.resolve_right Bool.false_ne_true
  rw [h0, A.lawful.isValid_zero] at hvalid
  cases hvalid

def RegrantedUpTo (c : EntryCodec) (o : MapOptions) (start : Word) (f₀ : Word → Word) (n : Nat)
    (f : Word → Word) : Prop :=
  ∀ y, Walk.IsPage y → if start.toNat ≤ y.toNat ∧ y.toNat < n
    then Regranted c o (f₀ y) (f y) else f y = f₀ y

theorem protect_pages (ha : Walk.Accepted start stop) {o : MapOptions}
    (ho : o.access.any = true) (f₀ : Word → Word) :
    Walk.PageSteps A ⟨A.codec, Visitor.protect A.codec o.normalized, true, stop⟩ start
      (fun n _ f => RegrantedUpTo A.codec o.normalized start f₀ n f)
      (fun _ _ => False) (fun _ _ => False) where
  skip := by
    rintro x r f hx - h0 h y hy
    have hy' := h y hy
    rw [if_congr (Walk.seen_step hx.aligned hy.aligned hx.le) rfl rfl]
    by_cases hpage : y = x
    · subst hpage
      rw [if_neg (by omega), h0] at hy'
      rw [if_pos (Or.inl rfl), ← hy', h0]
      refine ⟨rfl, fun _ => rfl, fun hv => ?_⟩
      rw [A.lawful.isValid_zero] at hv
      cases hv
    · rw [if_congr (or_iff_right hpage) rfl rfl]
      exact hy'
  visit := by
    rintro x r f v hx hleaf hval hv h
    obtain ⟨u, hu, hgo, hre⟩ := protect_visit ho (isLeaf_of_visited hleaf hval) x r
    rw [hu] at hv
    obtain rfl := Except.ok.inj hv
    rw [if_pos hgo]
    intro y hy
    have hy' := h y hy
    rw [Walk.rewrite_eq_getD (ha.isPage hx) hy,
      if_congr (Walk.seen_step hx.aligned hy.aligned hx.le) rfl rfl]
    by_cases hpage : y = x
    · subst hpage
      rw [if_neg (by omega)] at hy'
      rwa [if_pos rfl, if_pos (Or.inl rfl), ← hy']
    · rw [if_neg hpage, if_congr (or_iff_right hpage) rfl rfl]
      exact hy'
  abort := by
    rintro x r f e - hleaf hval hv -
    obtain ⟨u, hu, -⟩ := protect_visit ho (isLeaf_of_visited hleaf hval) x r
    rw [hu] at hv
    cases hv
  full := by
    rintro x r f - hal
    cases hal

theorem protect_isLeaf {o : MapOptions} (ho : o.access.any = true) {x w : Word} {r : Bool}
    {u : Visit Bool} {w' : Word} (hv : (Visitor.protect A.codec o).visit x w r = .ok u)
    (hw : u.entry = some w') : A.codec.IsLeaf w' := by
  rcases protect_cases ho hv with ⟨-, rfl⟩ | ⟨-, leaf, hleaf, rfl⟩
  · cases hw
  · obtain rfl := Option.some.inj hw
    exact ⟨_, o, hleaf⟩

theorem protect_leaves {o : MapOptions} (ho : o.access.any = true) {x w : Word} {r : Bool}
    {u : Visit Bool} {w' : Word} (hv : (Visitor.protect A.codec o).visit x w r = .ok u)
    (hw : u.entry = some w') : w' = 0 ∨ A.codec.IsLeaf w' :=
  Or.inr (protect_isLeaf ho hv hw)

theorem regrant_triple (hs : s ∈ S) (he : Walk.Editable S s start stop)
    (ha : Walk.Accepted start stop) {o : MapOptions} (ho : o.access.any = true) (m₀ : Memory) :
    Triple A.codec (fun m => m = m₀ ∧ Intact S m)
      (s.change (Visitor.protect A.codec o.normalized) start stop false)
      (fun _ m => Pruned S s start stop m₀ m ∧
        RegrantedUpTo A.codec o.normalized start (s.leafAt m₀) (Walk.pageEnd stop) (s.leafAt m))
      (fun _ _ => False) := by
  apply (prune_triple hs he ha rfl
    (fun _ _ _ _ _ => protect_leaves (MapOptions.any_normalized ho))
    (protect_pages ha ho (s.leafAt m₀)) m₀).pre
  rintro m ⟨rfl, h⟩
  exact ⟨rfl, h, fun y _ => by rw [if_neg (by omega)]⟩

theorem protect_triple (hs : s ∈ S) (hsplit : s.WellSplit) (hun : Unshared S s)
    (o : MapOptions) (m₀ : Memory) :
    Triple A.codec (fun m => m = m₀ ∧ Intact S m) (s.protect a length o)
      (fun _ m => Kept S s m₀ m) (fun e m => Kept S s m₀ m ∧ e.Benign) := by
  unfold protect
  obtain ⟨start, stop, hb, hm⟩ | ⟨e, hb, he⟩ := s.mutableBounds_cases a length
  · rw [hb, Action.lift_ok_bind]
    apply Triple.ite
    · intro ho
      cases hacc : Walk.accept start stop with
      | error e => exact change_rejected hacc m₀
      | ok u =>
        have ha := Walk.accept_eq_ok_iff.mp hacc
        exact ((regrant_triple hs (hsplit.editable hun ha hm.stop_le) ha ho m₀).post
          fun _ _ h => h.1.kept ha).error fun _ _ hf => hf.elim
    · exact fun _ => unmap_triple hs hsplit hun m₀
  · rw [hb, Action.lift_error_bind]
    exact throw_triple he m₀

end AddressSpace

open AddressSpace

namespace Change

variable {A : Architecture} {S : List (AddressSpace A)} {s : AddressSpace A}

def run (s : AddressSpace A) : Change → Action Memory Bool
  | map a length o physical => s.map a length o physical
  | unmap a length => s.unmap a length
  | protect a length o => s.protect a length o

/-- A change keeps the memory intact and leaves other spaces and the last page alone,
however it ends. -/
theorem run_triple (hs : s ∈ S) (hsplit : s.WellSplit) (hun : Unshared S s) (ch : Change)
    (m₀ : Memory) :
    Triple A.codec (fun m => m = m₀ ∧ Intact S m) (ch.run s)
      (fun _ m => Kept S s m₀ m) (fun e m => Kept S s m₀ m ∧ e.Benign) := by
  cases ch with
  | map a length o physical =>
    by_cases ho : o.access.any = true
    · exact (map_triple hs hsplit hun ho physical m₀).post fun _ _ h => h.kept
    · change Triple A.codec _ (s.map a length o physical) _ _
      unfold AddressSpace.map
      obtain ⟨start, stop, hb, hm⟩ | ⟨e, hb, he⟩ := s.mutableBounds_cases a length
      · rw [hb, Action.lift_ok_bind]
        dsimp only
        rw [if_neg ho]
        exact unmap_triple hs hsplit hun m₀
      · rw [hb, Action.lift_error_bind]
        exact throw_triple he m₀
  | unmap a length => exact unmap_triple hs hsplit hun m₀
  | protect a length o => exact protect_triple hs hsplit hun o m₀

theorem placed {m : Memory} (ch : Change) (hs : s ∈ S) (hsplit : s.WellSplit)
    (hun : Unshared S s) (hp : ((ch.run s).final m).Placed A.codec) : m.Placed A.codec :=
  hp.of_before ((ch.run_triple hs hsplit hun m).before m)

end Change

end Sandbox
