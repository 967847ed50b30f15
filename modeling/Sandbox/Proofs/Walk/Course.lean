import Sandbox.Proofs.Tree.Shape
import Sandbox.Proofs.Walk.Accounts
import Sandbox.Proofs.Walk.Books
import Sandbox.Proofs.Walk.Machine

/-! # The course of a walk

What a walk does next is decided by the shape of the tree and by the number of live arrays. It
follows a course from stage to stage that names neither words nor arrays, and each course ends
in one way. So two walks that follow one course end alike, whatever their entries look like and
wherever their arrays lie.
-/

namespace Sandbox

structure Tally where
  live : Nat
  allocations : Nat
  frees : Nat
  deriving DecidableEq

def Memory.tally (m : Memory) : Tally :=
  ⟨m.liveCount, m.allocations, m.frees⟩

namespace Level

def atDepth : Nat → Level
  | 0 => .pgd
  | 1 => .pud
  | 2 => .pmd
  | _ => .pte

@[simp] theorem atDepth_depth (l : Level) : atDepth l.depth = l := by
  cases l <;> rfl

theorem Below.ne_pte {child l : Level} (h : Below child l) : l ≠ .pte := by
  cases h <;> decide

theorem Below.ne_pgd {child l : Level} (h : Below child l) : child ≠ .pgd := by
  cases h <;> decide

end Level

namespace Walk

variable {α : Type} {A : Architecture} {S : List (AddressSpace A)} {s : AddressSpace A}
  {plan : Plan α} {start stop x y : Word} {J : List (Fin 512) → Word → α → Memory → Prop}
  {K : α → Memory → Prop} {E : Stop → Memory → Prop} {m m' : Memory} {l child : Level}
  {a b : PhysicalAddress} {r : α}

/-! ## Scouts -/

structure Look (α : Type) where
  /-- The new shape, if the entry changes. -/
  shape : Option Shape := none
  result : α
  /-- Whether the walk goes on. -/
  proceed : Bool := true

/-- A visitor that sees shapes in place of entries. -/
structure Scout (α : Type) where
  allocates : Bool
  look : Word → Shape → α → Except Abort (Look α)

def shown (c : EntryCodec) (v : Visit α) : Look α :=
  ⟨v.entry.map c.shape, v.result, v.proceed⟩

/-- The visitor writes leaves only, and does at each page of the range what the scout would do.
If it allocates, it maps each page that it visits. -/
structure Scout.Leads (A : Architecture) (scout : Scout α) (v : Visitor α) (start stop : Word) :
    Prop where
  allocates : scout.allocates = v.allocates
  leaves : ∀ {x w r u w'}, v.visit x w r = .ok u → u.entry = some w' →
    w' = 0 ∨ A.codec.IsLeaf w'
  maps : v.allocates = true → ∀ {x w r u}, v.visit x w r = .ok u →
    ∃ w', u.entry = some w' ∧ A.codec.isValid w' = true
  look : ∀ {x w r}, Inside start stop x → (w = 0 ∨ A.codec.IsLeaf w) →
    (A.codec.isValid w = true ∨ v.allocates = true) →
    scout.look x (A.codec.shape w) r = (v.visit x w r).map (shown A.codec)

/-! ## Courses -/

/-- A walk, with a scout in place of the visitor. -/
structure Course (α : Type) where
  scout : Scout α
  reclaim : Bool
  stop : Word
  /-- The limit on the number of live arrays. -/
  limit : Option Nat

/-- A walk has come to a page in the array at the end of a path. -/
structure Stage (α : Type) where
  path : List (Fin 512)
  page : Nat
  result : α
  shape : List (Fin 512) → Shape
  tally : Tally

structure Ending (α : Type) where
  outcome : Except Stop α
  shape : List (Fin 512) → Shape
  tally : Tally

namespace Course

def isFull (c : Course α) (t : Tally) : Bool :=
  c.limit.any fun limit => decide (limit ≤ t.live)

def visit (c : Course α) (x : Word) (q : List (Fin 512)) (σ : Stage α) : Stage α ⊕ Ending α :=
  match c.scout.look x (σ.shape q) σ.result with
  | .error e => .inr ⟨.error (.abort e), σ.shape, σ.tally⟩
  | .ok v =>
    let shape := v.shape.elim σ.shape (Function.update σ.shape q)
    if v.proceed then .inl ⟨σ.path, σ.page + 4096, v.result, shape, σ.tally⟩
    else .inr ⟨.ok v.result, shape, σ.tally⟩

def enter (c : Course α) (q : List (Fin 512)) (σ : Stage α) : Stage α ⊕ Ending α :=
  if σ.shape q = .free then
    if c.isFull σ.tally then .inr ⟨.error (.refusal .outOfMemory), σ.shape, σ.tally⟩
    else .inl ⟨q, σ.page, σ.result, Function.update σ.shape q .table,
      ⟨σ.tally.live + 1, σ.tally.allocations + 1, σ.tally.frees⟩⟩
  else .inl { σ with path := q }

/-- Deal with one slot. A free one is passed over if nothing is to be attached to it. -/
def slot (c : Course α) (l : Level) (x : Word) (σ : Stage α) : Stage α ⊕ Ending α :=
  let q := l.index x :: σ.path
  if σ.shape q = .free ∧ c.scout.allocates = false then
    .inl { σ with page := min ((σ.page / 2 ^ l.shift + 1) * 2 ^ l.shift) (pageEnd c.stop) }
  else if l = .pte then c.visit x q σ
  else c.enter q σ

def leave (c : Course α) (σ : Stage α) : Stage α ⊕ Ending α :=
  match σ.path with
  | [] => .inr ⟨.ok σ.result, σ.shape, σ.tally⟩
  | i :: p =>
    if c.reclaim = true ∧ c.scout.allocates = false ∧ ∀ j, σ.shape (j :: i :: p) = .free then
      .inl ⟨p, σ.page, σ.result, Function.update σ.shape (i :: p) .free,
        ⟨σ.tally.live - 1, σ.tally.allocations, σ.tally.frees + 1⟩⟩
    else .inl { σ with path := p }

/-- What comes after a stage. An array is left at its end and at the end of the range. -/
def next (c : Course α) (σ : Stage α) : Stage α ⊕ Ending α :=
  let x := BitVec.ofNat 64 σ.page
  let l := Level.atDepth σ.path.length
  if σ.page < c.stop.toNat ∧ l.path x = σ.path then c.slot l x σ else c.leave σ

end Course

/-! ## Walks on course -/

def Plan.course (plan : Plan α) (scout : Scout α) (limit : Option Nat) : Course α :=
  ⟨scout, plan.reclaim, plan.stop, limit⟩

def stage (s : AddressSpace A) (stop : Word) (p : List (Fin 512)) (x : Word) (r : α)
    (m : Memory) : Stage α :=
  ⟨p, seen stop x, r, s.shapeAt m, m.tally⟩

def ending (s : AddressSpace A) (o : Except Stop α) (m : Memory) : Ending α :=
  ⟨o, s.shapeAt m, m.tally⟩

/-- The walk ends as its course does from the stage that it has come to. -/
structure OnCourse (c : Course α) (σ : Stage α) (s : AddressSpace A) (p : List (Fin 512))
    (x : Word) (r : α) (m : Memory) : Prop where
  limit : m.limit = c.limit
  ends : EndsAs c.next σ (stage s c.stop p x r m)

namespace OnCourse

variable {c : Course α} {σ : Stage α} {p p' : List (Fin 512)} {r' : α}

theorem step (h : OnCourse c σ s p x r m) (hlimit : m'.limit = m.limit)
    (hnext : c.next (stage s c.stop p x r m) = .inl (stage s c.stop p' y r' m')) :
    OnCourse c σ s p' y r' m' :=
  ⟨hlimit.trans h.limit, h.ends.step hnext⟩

theorem halt {f : Ending α} (h : OnCourse c σ s p x r m)
    (hnext : c.next (stage s c.stop p x r m) = .inr f) : Halts c.next σ f :=
  h.ends.halt hnext

theorem isFull_eq (h : OnCourse c σ s p x r m) : c.isFull m.tally = m.limitReached := by
  rw [Course.isFull, ← h.limit]
  rfl

end OnCourse

section Next

variable {scout : Scout α} {limit : Option Nat}

theorem At.next_eq (h : At S s start plan.stop m l a x) : (plan.course scout limit).next
    (stage s plan.stop (l.path x) x r m) = (plan.course scout limit).slot l x
      (stage s plan.stop (l.path x) x r m) := by
  have hpage : BitVec.ofNat 64 (seen plan.stop x) = x := by
    rw [h.inside.seen_eq, BitVec.ofNat_toNat, BitVec.setWidth_eq]
  have hlt : seen plan.stop x < plan.stop.toNat := h.inside.seen_eq ▸ h.inside.lt
  simp only [Course.next, stage, hpage, Level.length_path, Level.atDepth_depth]
  exact if_pos ⟨hlt, trivial⟩

theorem Inside.path_ne (hx : Inside start stop x) (ha : Accepted start stop)
    (hb : Level.Below child l) (hy : y.toNat = (x.toNat / 2 ^ l.shift + 1) * 2 ^ l.shift)
    (hlt : y.toNat < stop.toNat) : child.path y ≠ child.path x := by
  intro hpath
  have hle : x.toNat ≤ y.toNat :=
    hy ▸ ((Nat.div_lt_iff_lt_mul (Nat.two_pow_pos _)).mp (Nat.lt_succ_self _)).le
  have hblock := Level.path_inj hb.ne_pgd (ha.isCanonical (hx.le.trans hle) hlt)
    (ha.isCanonical hx.le hx.lt) hpath
  rw [← hb.shift_eq, hy, Nat.mul_div_cancel _ (Nat.two_pow_pos _)] at hblock
  omega

theorem At.next_past (h : At S s start plan.stop m child b x) (ha : Accepted start plan.stop)
    (hb : Level.Below child l) (hpast : Past plan.stop l.shift x y) :
    (plan.course scout limit).next (stage s plan.stop (child.path x) y r m') =
      (plan.course scout limit).leave (stage s plan.stop (child.path x) y r m') := by
  simp only [Course.next, stage, Level.length_path, Level.atDepth_depth]
  apply if_neg
  rintro ⟨hlt, hpath⟩
  change seen plan.stop y < plan.stop.toNat at hlt
  -- A cursor short of the end is at the start of the next block, which has another path.
  have hylt : y.toNat < plan.stop.toNat := by
    by_contra hge
    rw [seen_of_stop_le (by omega), pageEnd] at hlt
    omega
  have hreach := hpast.reach.resolve_left (by omega)
  have haligned := hpast.aligned l.twelve_le_shift hylt
  rw [seen_of_lt haligned hylt, BitVec.ofNat_toNat, BitVec.setWidth_eq] at hpath
  exact h.inside.path_ne ha hb hreach hylt hpath

theorem At.shape_eq (h : At S s start stop m l a x) :
    s.shapeAt m (l.index x :: l.path x) = A.codec.shape (m.entry a (l.index x)) :=
  AddressSpace.shapeAt_cons (by simpa using l.depth_le) h.arrayAt_eq

theorem At.seen_skip (h : At S s start stop m l a x) (hpast : Past stop l.shift x y) :
    min ((seen stop x / 2 ^ l.shift + 1) * 2 ^ l.shift) (pageEnd stop) = seen stop y := by
  have hblock := l.block_aligned (x.toNat / 2 ^ l.shift + 1)
  have hbound := hpast.bound
  rw [h.inside.seen_eq]
  rcases hpast.reach with hreach | hreach
  · rw [seen_of_stop_le hreach]
    unfold pageEnd
    omega
  · unfold seen
    omega

theorem At.slot_pte (h : At S s start plan.stop m .pte a x)
    (hlead : scout.Leads A plan.visitor start plan.stop)
    (hval : A.codec.isValid (m.entry a (Level.pte.index x)) = true ∨
      plan.visitor.allocates = true) : (plan.course scout limit).next
    (stage s plan.stop (Level.pte.path x) x r m) = (plan.course scout limit).visit x
      (Level.pte.index x :: Level.pte.path x) (stage s plan.stop (Level.pte.path x) x r m) := by
  refine h.next_eq.trans ?_
  rw [Course.slot, if_neg, if_pos rfl]
  · rfl
  · rintro ⟨hfree, hal⟩
    change s.shapeAt m (Level.pte.index x :: Level.pte.path x) = .free at hfree
    rw [h.shape_eq, EntryCodec.shape_eq_free_iff] at hfree
    rw [Plan.course, hlead.allocates] at hal
    rw [hfree, hal] at hval
    simp at hval

theorem At.look_eq (h : At S s start plan.stop m .pte a x)
    (hlead : scout.Leads A plan.visitor start plan.stop)
    (hval : A.codec.isValid (m.entry a (Level.pte.index x)) = true ∨
      plan.visitor.allocates = true) :
    scout.look x (s.shapeAt m (Level.pte.index x :: Level.pte.path x)) r =
      (plan.visitor.visit x (m.entry a (Level.pte.index x)) r).map (shown A.codec) := by
  rw [h.shape_eq]
  exact hlead.look h.inside
    (h.intact.leaves_of_arrayAt h.mem (Level.length_path .pte x) h.arrayAt_eq _) hval

theorem OnCourse.visited {σ : Stage α} {v : Visit α}
    (h : OnCourse (plan.course scout limit) σ s (Level.pte.path x) x r m)
    (hs : Scope S s plan start) (ha : At S s start plan.stop m .pte a x)
    (hlead : scout.Leads A plan.visitor start plan.stop)
    (hval : A.codec.isValid (m.entry a (Level.pte.index x)) = true ∨
      plan.visitor.allocates = true)
    (hv : plan.visitor.visit x (m.entry a (Level.pte.index x)) r = .ok v)
    (hlimit : m'.limit = m.limit) (htally : m'.tally = m.tally)
    (hshape : s.shapeAt m' = (v.entry.map A.codec.shape).elim (s.shapeAt m)
      (Function.update (s.shapeAt m) (Level.pte.index x :: Level.pte.path x))) :
    After (OnCourse (plan.course scout limit) σ s)
      (fun r m => Halts (plan.course scout limit).next σ (ending s (.ok r) m)) x v m' := by
  have hnext : (plan.course scout limit).next (stage s plan.stop (Level.pte.path x) x r m) =
      if v.proceed = true
      then .inl (stage s plan.stop (Level.pte.path x) (x + pageSize) v.result m')
      else .inr (ending s (.ok v.result) m') := by
    have hlook : scout.look x (s.shapeAt m (Level.pte.index x :: Level.pte.path x)) r =
        .ok (shown A.codec v) := by
      rw [ha.look_eq hlead hval, hv]
      rfl
    rw [ha.slot_pte hlead hval, stage, stage, ending, hshape, htally,
      ha.inside.seen_add hs.accepted.stop_le, ha.inside.seen_eq, Course.visit, Plan.course, hlook]
    rfl
  unfold After
  by_cases hgo : v.proceed = true
  · rw [if_pos hgo] at hnext ⊢
    exact h.step hlimit hnext
  · rw [if_neg hgo] at hnext ⊢
    exact h.halt hnext

theorem At.next_enter (h : At S s start plan.stop m l a x) (hb : Level.Below child l)
    (hgo : A.codec.isValid (m.entry a (l.index x)) = true ∨ scout.allocates = true) :
    (plan.course scout limit).next (stage s plan.stop (l.path x) x r m) =
      (plan.course scout limit).enter (child.path x) (stage s plan.stop (l.path x) x r m) := by
  refine h.next_eq.trans ?_
  rw [Course.slot, if_neg, if_neg hb.ne_pte, hb.path_eq]
  · rfl
  · rintro ⟨hfree, hal⟩
    change s.shapeAt m (l.index x :: l.path x) = .free at hfree
    change scout.allocates = false at hal
    rw [h.shape_eq, EntryCodec.shape_eq_free_iff] at hfree
    rw [hfree, hal] at hgo
    simp at hgo

theorem OnCourse.attached {σ : Stage α} {w : Word}
    (h : OnCourse (plan.course scout limit) σ s (l.path x) x r m) (hb : Level.Below child l)
    (ha : At S s start plan.stop m l a x) (hsite : Site S m s (l.path x) a (l.index x))
    (hal : scout.allocates = true) (hv : A.codec.isValid (m.entry a (l.index x)) = false)
    (hroom : m.limitReached = false) (hnew : m.nextArray ∉ m.live)
    (hw : A.codec.IsPointer w m.nextArray) : OnCourse (plan.course scout limit) σ s
      (child.path x) x r (m.attach a (l.index x) w) := by
  have hlimit : (m.attach a (l.index x) w).limit = m.limit := rfl
  apply h.step hlimit
  have htally : (m.attach a (l.index x) w).tally =
      ⟨m.tally.live + 1, m.tally.allocations + 1, m.tally.frees⟩ :=
    congrArg (Tally.mk · _ _) (Memory.liveCount_handOut hnew)
  have hshape : s.shapeAt (m.attach a (l.index x) w) =
      Function.update (s.shapeAt m) (child.path x) .table := by
    rw [hsite.shapeAt_attach hnew (hb.length_path_lt x) hv hw, hb.path_eq]
  have hfree : s.shapeAt m (child.path x) = .free := by
    rw [hb.path_eq, ha.shape_eq, EntryCodec.shape_eq_free_iff, hv]
  have hn : ¬ (plan.course scout limit).isFull m.tally = true := by
    rw [h.isFull_eq, hroom]
    exact Bool.false_ne_true
  refine (ha.next_enter hb (Or.inr hal)).trans ?_
  rw [Course.enter, stage, stage, hshape, htally, if_pos hfree, if_neg hn]
  rfl

theorem OnCourse.entered {σ : Stage α}
    (h : OnCourse (plan.course scout limit) σ s (l.path x) x r m) (hb : Level.Below child l)
    (ha : At S s start plan.stop m l a x) (hc : At S s start plan.stop m child b x) :
    OnCourse (plan.course scout limit) σ s (child.path x) x r m := by
  apply h.step rfl
  have htable : s.shapeAt m (child.path x) = .table :=
    (AddressSpace.shapeAt_eq_table_iff (by simpa using child.depth_le)).mpr ⟨b, hc.arrayAt_eq⟩
  have hvalid : A.codec.isValid (m.entry a (l.index x)) = true := by
    rw [hb.path_eq, ha.shape_eq, EntryCodec.shape_eq_table_iff, EntryCodec.isIntermediate,
      Bool.and_eq_true] at htable
    exact htable.1
  have hn : ¬ s.shapeAt m (child.path x) = .free := by
    rw [htable]
    intro hfree
    cases hfree
  refine (ha.next_enter hb (Or.inl hvalid)).trans ?_
  rw [Course.enter, stage, if_neg hn]
  rfl

theorem OnCourse.left {σ : Stage α}
    (h : OnCourse (plan.course scout limit) σ s (child.path x) y r m) (hb : Level.Below child l)
    (ha : Accepted start plan.stop) (hc : At S s start plan.stop m child b x)
    (hpast : Past plan.stop l.shift x y)
    (hkeep : ¬ (plan.reclaim = true ∧ scout.allocates = false ∧ Site.Vacant m A.codec b)) :
    OnCourse (plan.course scout limit) σ s (l.path x) y r m := by
  apply h.step rfl
  refine (hc.next_past ha hb hpast).trans ?_
  rw [AddressSpace.vacant_iff (by simpa using child.depth_le) hc.arrayAt_eq, hb.path_eq] at hkeep
  rw [hb.path_eq]
  exact if_neg hkeep

/-- A vacant array is given back when it is left. -/
theorem OnCourse.detached {σ : Stage α}
    (h : OnCourse (plan.course scout limit) σ s (child.path x) y r m) (hb : Level.Below child l)
    (ha : Accepted start plan.stop) (hsite : Site S m s (l.path x) a (l.index x))
    (hc : At S s start plan.stop m child b x) (hpast : Past plan.stop l.shift x y)
    (hreclaim : plan.reclaim = true) (hal : scout.allocates = false)
    (hvac : Site.Vacant m A.codec b) :
    OnCourse (plan.course scout limit) σ s (l.path x) y r (m.detach a (l.index x) b) := by
  have hlimit : (m.detach a (l.index x) b).limit = m.limit := rfl
  apply h.step hlimit
  refine (hc.next_past ha hb hpast).trans ?_
  have hbelow := hc.arrayAt_below hb
  have hcount : (m.detach a (l.index x) b).liveCount + 1 = m.liveCount :=
    Memory.liveCount_giveBack (m := m.setEntry a (l.index x) 0) hc.mem_live
  have htally : (m.detach a (l.index x) b).tally =
      ⟨m.tally.live - 1, m.tally.allocations, m.tally.frees + 1⟩ :=
    congrArg (Tally.mk · _ _) (Nat.eq_sub_of_add_eq hcount)
  have hfree := (AddressSpace.vacant_iff (by simpa using child.depth_le) hc.arrayAt_eq).mp hvac
  rw [hb.path_eq] at hfree ⊢
  rw [stage, stage, hsite.shapeAt_detach hbelow hvac (hb.length_path_lt x), htally]
  exact if_pos ⟨hreclaim, hal, hfree⟩

end Next

theorem PageSteps.mapped (hmaps : plan.visitor.allocates = true → ∀ {x w r u},
      plan.visitor.visit x w r = .ok u → ∃ w', u.entry = some w' ∧ A.codec.isValid w' = true) :
    PageSteps A plan start (fun n _ f => plan.visitor.allocates = true →
        ∀ z, Inside start plan.stop z → z.toNat < n → A.codec.isValid (f z) = true)
      (fun _ _ => True) (fun _ _ => True) where
  skip := by
    intro x r f _ hal _ _ hal'
    rw [hal] at hal'
    cases hal'
  visit := by
    intro x r f v hx _ _ hv hi
    split
    · intro hal z hz hlt
      obtain ⟨w, hw, hvalid⟩ := hmaps hal hv
      rw [hw, rewrite]
      split
      · exact hvalid
      · next hne =>
        have hzx : z.toNat ≠ x.toNat := fun he => hne (by rw [BitVec.eq_of_toNat_eq he])
        have hza := hz.aligned
        have hxa := hx.aligned
        exact hi hal z hz (by omega)
    · trivial
  abort _ _ _ _ _ := trivial
  full _ _ _ _ := trivial

/-- A walk that a scout leads stays on course. If it allocates it leaves mapped pages behind, as
`J` says, and so gives no array back. -/
theorem Keeps.course {scout : Scout α} (hs : Scope S s plan start)
    (hk : Keeps S s plan start J K E) (hlead : scout.Leads A plan.visitor start plan.stop)
    (hmapped : plan.visitor.allocates = true → ∀ {p x r m}, J p x r m → ∀ z,
      Inside start plan.stop z → z.toNat < x.toNat → A.codec.isValid (s.leafAt m z) = true)
    (limit : Option Nat) (σ : Stage α) :
    Keeps S s plan start
      (fun p x r m => J p x r m ∧ OnCourse (plan.course scout limit) σ s p x r m)
      (fun r m => K r m ∧ Halts (plan.course scout limit).next σ (ending s (.ok r) m))
      (fun e m => E e m ∧ Halts (plan.course scout limit).next σ (ending s (.error e) m)) where
  skip := by
    rintro m l a x y r ha hal hv hpast ⟨hj, hc⟩
    refine ⟨hk.skip ha hal hv hpast hj, hc.step rfl ?_⟩
    have hfree : s.shapeAt m (l.index x :: l.path x) = .free := by
      rw [ha.shape_eq, EntryCodec.shape_eq_free_iff, hv]
    refine ha.next_eq.trans ?_
    rw [Course.slot, if_pos ⟨hfree, hlead.allocates.trans hal⟩]
    exact congrArg Sum.inl (congrArg (Stage.mk _ · r _ _) (ha.seen_skip hpast))
  visit ha hval hv he hj := (hk.visit ha hval hv he hj.1).and
    (hj.2.visited hs ha hlead hval hv rfl rfl (by rw [he]; rfl))
  write ha hsite hval hv he hj := (hk.write ha hsite hval hv he hj.1).and
    (hj.2.visited hs ha hlead hval hv rfl rfl (by rw [he, hsite.shapeAt_setEntry rfl]; rfl))
  abort := by
    rintro m a x r e ha hval hv ⟨hj, hc⟩
    refine ⟨hk.abort ha hval hv hj, hc.halt ?_⟩
    have hlook := ha.look_eq (r := r) hlead hval
    rw [hv] at hlook
    refine (ha.slot_pte hlead hval).trans ?_
    rw [Course.visit, Plan.course, stage, hlook]
    rfl
  full := by
    rintro m l child a x r hb ha hal hv hfull ⟨hj, hc⟩
    refine ⟨hk.full hb ha hal hv hfull hj, hc.halt ?_⟩
    have hfree : s.shapeAt m (child.path x) = .free := by
      rw [hb.path_eq, ha.shape_eq, EntryCodec.shape_eq_free_iff, hv]
    refine (ha.next_enter hb (Or.inr (hlead.allocates.trans hal))).trans ?_
    rw [Course.enter, stage, if_pos hfree, if_pos (hc.isFull_eq.trans hfull)]
    rfl
  attach hb ha hsite hal hv hroom hnew hw hj :=
    ⟨hk.attach hb ha hsite hal hv hroom hnew hw hj.1,
      hj.2.attached hb ha hsite (hlead.allocates.trans hal) hv hroom hnew hw⟩
  enter hb ha hc hj := ⟨hk.enter hb ha hc hj.1, hj.2.entered hb ha hc⟩
  leave := by
    rintro m l child a b x y r hb ha hc hpast hkeep ⟨hj, hcourse⟩
    refine ⟨hk.leave hb ha hc hpast hkeep hj, hcourse.left hb hs.accepted hc hpast ?_⟩
    rintro ⟨hreclaim, hal, hvac⟩
    rw [hreclaim, ← hlead.allocates, hal] at hkeep
    exact (hkeep.resolve_left nofun).resolve_left nofun hvac
  detach := by
    rintro m l child a b x y r hb ha hsite hc hreclaim hpast hvac ⟨hj, hcourse⟩
    refine ⟨hk.detach hb ha hsite hc hreclaim hpast hvac hj,
      hcourse.detached hb hs.accepted hsite hc hpast hreclaim ?_ hvac⟩
    rw [hlead.allocates, ← Bool.not_eq_true]
    intro hal
    exact not_vacant_of_valid hc (hmapped hal hj x ha.inside (hpast.lt ha.inside)) hvac

/-- A walk ends as its course does. -/
theorem range_ends {scout : Scout α} (hs : Scope S s plan start)
    (hlead : scout.Leads A plan.visitor start plan.stop) (hi : Intact S m) (r : α)
    (hp : ((range plan s.root start r).final m).Placed A.codec) :
    Halts (plan.course scout m.limit).next (stage s plan.stop [] start r m)
      (ending s ((range plan s.root start r).outcome m) ((range plan s.root start r).final m)) := by
  have hcourse := (Keeps.pages hs (.mapped hlead.maps)).course hs hlead
    (fun hal {p x r m} hj z hz hlt => hj hal z hz (hz.lt_seen hlt)) m.limit
    (stage s plan.stop [] start r m)
  have htriple := range_triple hs hcourse r
  have hpre : Intact S m ∧ (plan.visitor.allocates = true → ∀ z, Inside start plan.stop z →
      z.toNat < seen plan.stop start → A.codec.isValid (s.leafAt m z) = true) ∧
      OnCourse (plan.course scout m.limit) (stage s plan.stop [] start r m) s [] start r m := by
    refine ⟨hi, fun _ z hz hlt => ?_, rfl, .refl _ _⟩
    rw [hs.accepted.seen_start] at hlt
    exact absurd hz.le (Nat.not_le.mpr hlt)
  cases hout : (range plan s.root start r).outcome m with
  | error e => exact (htriple.of_error hpre hp hout).2.2
  | ok r' =>
    rcases (htriple.of_ok hpre hp hout).2 with ⟨y, hy, -, hc⟩ | ⟨-, hf⟩
    · apply hc.halt
      refine if_neg fun h => ?_
      have hlt : seen plan.stop y < plan.stop.toNat := h.1
      rw [seen_of_stop_le hy, pageEnd] at hlt
      omega
    · exact hf

end Walk

end Sandbox
