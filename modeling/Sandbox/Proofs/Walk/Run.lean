import Sandbox.Proofs.Walk.Course

/-! # The run of a walk

What a walk does next depends on the page, the array and the memory that it has come to, and not
on how it came there. So a walk is the run of a machine from place to place. A machine that is
stopped at a page and another one that is started at the root for the same page get to the same
place, although the first one may have given back arrays that the whole run gives back later.
-/

namespace Sandbox

/-- The visitor goes through whole ranges, and maps each page that it visits if it allocates. -/
structure Visitor.Sweeps {α : Type} (A : Architecture) (v : Visitor α) : Prop where
  proceeds : ∀ {x w r u}, v.visit x w r = .ok u → u.proceed = true
  maps : v.allocates = true → ∀ {x w r u}, v.visit x w r = .ok u →
    ∃ w', u.entry = some w' ∧ A.codec.isValid w' = true

namespace Walk

variable {α : Type} {A : Architecture} {S : List (AddressSpace A)} {s : AddressSpace A}
  {plan : Plan α} {start stop x y : Word} {m : Memory} {l child : Level}
  {a b : PhysicalAddress} {r : α} {w : Word}

/-! ## The machine -/

/-- A walk has come to a page in the array at the end of a path. -/
structure Place (α : Type) where
  path : List (Fin 512)
  page : Nat
  result : α
  memory : Memory

abbrev Finish (α : Type) := Except Stop α × Memory

def slotEnd (stop : Word) (l : Level) (n : Nat) : Nat :=
  min ((n / 2 ^ l.shift + 1) * 2 ^ l.shift) (pageEnd stop)

namespace Plan

def visitPage (plan : Plan α) (a : PhysicalAddress) (x : Word) (σ : Place α) :
    Place α ⊕ Finish α :=
  let i := Level.pte.index x
  match plan.visitor.visit x (σ.memory.entry a i) σ.result with
  | .error e => .inr (.error (.abort e), σ.memory)
  | .ok v =>
    let m := v.entry.elim σ.memory (σ.memory.setEntry a i)
    if v.proceed then .inl ⟨σ.path, σ.page + 4096, v.result, m⟩ else .inr (.ok v.result, m)

def goDown (plan : Plan α) (a : PhysicalAddress) (i : Fin 512) (σ : Place α) :
    Place α ⊕ Finish α :=
  let m := σ.memory
  if plan.codec.isValid (m.entry a i) then .inl { σ with path := i :: σ.path }
  else if m.limitReached then .inr (.error (.refusal .outOfMemory), m)
  else
    match plan.codec.compose m.nextArray plan.codec.tableBits with
    | .ok w => .inl ⟨i :: σ.path, σ.page, σ.result, m.attach a i w⟩
    | .error e => .inr (.error (.abort e), m)

/-- Deal with one slot. A free one is passed over if nothing is to be attached to it. -/
def dealWith (plan : Plan α) (l : Level) (a : PhysicalAddress) (x : Word) (σ : Place α) :
    Place α ⊕ Finish α :=
  if plan.codec.isValid (σ.memory.entry a (l.index x)) = false ∧
      plan.visitor.allocates = false then
    .inl { σ with page := slotEnd plan.stop l σ.page }
  else if l = .pte then plan.visitPage a x σ
  else plan.goDown a (l.index x) σ

def goUp (plan : Plan α) (s : AddressSpace A) (b : PhysicalAddress) (σ : Place α) :
    Place α ⊕ Finish α :=
  match σ.path with
  | [] => .inr (.ok σ.result, σ.memory)
  | i :: p =>
    let m := σ.memory
    let spent := plan.reclaim && !plan.visitor.allocates && (m.array b).isEmpty plan.codec
    .inl ⟨p, σ.page, σ.result,
      if spent then (s.arrayAt m p).elim m (m.detach · i b) else m⟩

/-- What comes after a place. An array is left at its end and at the end of the range. -/
def next (plan : Plan α) (s : AddressSpace A) (σ : Place α) : Place α ⊕ Finish α :=
  match s.arrayAt σ.memory σ.path with
  | none => .inr (.ok σ.result, σ.memory)
  | some a =>
    let x := BitVec.ofNat 64 σ.page
    let l := Level.atDepth σ.path.length
    if σ.page < plan.stop.toNat ∧ l.path x = σ.path then plan.dealWith l a x σ
    else plan.goUp s a σ

def upTo (plan : Plan α) (stop : Word) : Plan α :=
  { plan with stop := stop }

end Plan

/-! ## What comes next -/

theorem At.move (h : At S s start stop m l a x) (hy : Inside start stop y)
    (hxy : y.toNat / 2 ^ l.shift = x.toNat / 2 ^ l.shift) : At S s start stop m l a y :=
  ⟨h.intact, h.mem, hy, Level.path_congr_slot hxy ▸ h.arrayAt_eq⟩

theorem At.mono {stop' : Word} (h : At S s start stop m l a x)
    (hle : stop.toNat ≤ stop'.toNat) : At S s start stop' m l a x :=
  ⟨h.intact, h.mem, ⟨h.inside.le, h.inside.lt.trans_le hle, h.inside.aligned⟩, h.arrayAt_eq⟩

theorem At.step_slot (h : At S s start plan.stop m l a x) :
    plan.next s ⟨l.path x, x.toNat, r, m⟩ = plan.dealWith l a x ⟨l.path x, x.toNat, r, m⟩ := by
  simp only [Plan.next, h.arrayAt_eq, BitVec.ofNat_toNat, BitVec.setWidth_eq, Level.length_path,
    Level.atDepth_depth]
  exact if_pos ⟨h.inside.lt, trivial⟩

theorem At.step_skip (hs : Scope S s plan start) (h : At S s start plan.stop m l a x)
    (hal : plan.visitor.allocates = false)
    (hv : A.codec.isValid (m.entry a (l.index x)) = false) :
    plan.next s ⟨l.path x, x.toNat, r, m⟩ =
      .inl ⟨l.path x, slotEnd plan.stop l x.toNat, r, m⟩ := by
  rw [h.step_slot, Plan.dealWith, hs.codec_eq, if_pos ⟨hv, hal⟩]

theorem At.step_goDown (hs : Scope S s plan start) (h : At S s start plan.stop m l a x)
    (hb : Level.Below child l)
    (hgo : A.codec.isValid (m.entry a (l.index x)) = true ∨ plan.visitor.allocates = true) :
    plan.next s ⟨l.path x, x.toNat, r, m⟩ =
      plan.goDown a (l.index x) ⟨l.path x, x.toNat, r, m⟩ := by
  rw [h.step_slot, Plan.dealWith, hs.codec_eq, if_neg, if_neg hb.ne_pte]
  rintro ⟨hv, hal⟩
  rw [hv, hal] at hgo
  simp at hgo

theorem At.step_enter (hs : Scope S s plan start) (h : At S s start plan.stop m l a x)
    (hb : Level.Below child l) (hc : At S s start plan.stop m child b x) :
    plan.next s ⟨l.path x, x.toNat, r, m⟩ = .inl ⟨child.path x, x.toNat, r, m⟩ := by
  have hv : A.codec.isValid (m.entry a (l.index x)) = true := by
    by_contra hn
    have hbelow := hc.arrayAt_eq
    rw [hb.path_eq, AddressSpace.arrayAt_cons, h.arrayAt_eq, Option.bind_some,
      EntryCodec.child?_eq_none (Bool.eq_false_iff.mpr hn)] at hbelow
    cases hbelow
  rw [h.step_goDown hs hb (Or.inl hv), Plan.goDown, hs.codec_eq, if_pos hv, hb.path_eq]

theorem At.step_full (hs : Scope S s plan start) (h : At S s start plan.stop m l a x)
    (hb : Level.Below child l) (hal : plan.visitor.allocates = true)
    (hv : A.codec.isValid (m.entry a (l.index x)) = false) (hfull : m.limitReached = true) :
    plan.next s ⟨l.path x, x.toNat, r, m⟩ = .inr (.error (.refusal .outOfMemory), m) := by
  rw [h.step_goDown hs hb (Or.inr hal), Plan.goDown, hs.codec_eq,
    if_neg (Bool.eq_false_iff.mp hv), if_pos hfull]

theorem At.step_attach (hs : Scope S s plan start) (h : At S s start plan.stop m l a x)
    (hb : Level.Below child l) (hal : plan.visitor.allocates = true)
    (hv : A.codec.isValid (m.entry a (l.index x)) = false) (hroom : m.limitReached = false)
    (hw : A.codec.IsPointer w m.nextArray) : plan.next s ⟨l.path x, x.toNat, r, m⟩ =
      .inl ⟨child.path x, x.toNat, r, m.attach a (l.index x) w⟩ := by
  rw [h.step_goDown hs hb (Or.inr hal), Plan.goDown, hs.codec_eq,
    if_neg (Bool.eq_false_iff.mp hv), if_neg (Bool.eq_false_iff.mp hroom), hw.2, hb.path_eq]

theorem At.step_visitPage (hs : Scope S s plan start) (h : At S s start plan.stop m .pte a x)
    (hval : A.codec.isValid (m.entry a (Level.pte.index x)) = true ∨
      plan.visitor.allocates = true) : plan.next s ⟨Level.pte.path x, x.toNat, r, m⟩ =
      plan.visitPage a x ⟨Level.pte.path x, x.toNat, r, m⟩ := by
  rw [h.step_slot, Plan.dealWith, hs.codec_eq, if_neg, if_pos rfl]
  rintro ⟨hv, hal⟩
  rw [hv, hal] at hval
  simp at hval

theorem slotEnd_congr {n k : Nat} (h : n / 2 ^ l.shift = k / 2 ^ l.shift) :
    slotEnd stop l n = slotEnd stop l k := by
  rw [slotEnd, slotEnd, h]

theorem At.step_goUp (hs : Scope S s plan start) (h : At S s start plan.stop m l a x)
    (hb : Level.Below child l) (hc : At S s start plan.stop m child b x) :
    plan.next s ⟨child.path x, slotEnd plan.stop l x.toNat, r, m⟩ =
      .inl ⟨l.path x, slotEnd plan.stop l x.toNat, r,
        if plan.reclaim && !plan.visitor.allocates && (m.array b).isEmpty A.codec
        then m.detach a (l.index x) b else m⟩ := by
  have hend : ¬ (slotEnd plan.stop l x.toNat < plan.stop.toNat ∧
      child.path (BitVec.ofNat 64 (slotEnd plan.stop l x.toNat)) = child.path x) := by
    rintro ⟨hlt, hpath⟩
    have hstop := plan.stop.isLt
    refine h.inside.path_ne hs.accepted hb ?_ ?_ hpath
    · rw [BitVec.toNat_ofNat, Nat.mod_eq_of_lt (by omega)]
      unfold slotEnd pageEnd at hlt ⊢
      omega
    · rwa [BitVec.toNat_ofNat, Nat.mod_eq_of_lt (by omega)]
  simp only [Plan.next, hc.arrayAt_eq, Level.length_path, Level.atDepth_depth]
  rw [if_neg hend, Plan.goUp]
  simp only [hb.path_eq, h.arrayAt_eq, hs.codec_eq, Option.elim_some]

theorem At.step_leave (hs : Scope S s plan start) (h : At S s start plan.stop m l a x)
    (hb : Level.Below child l) (hc : At S s start plan.stop m child b x)
    (hkeep : plan.reclaim = false ∨ plan.visitor.allocates = true ∨ ¬ Site.Vacant m A.codec b) :
    plan.next s ⟨child.path x, slotEnd plan.stop l x.toNat, r, m⟩ =
      .inl ⟨l.path x, slotEnd plan.stop l x.toNat, r, m⟩ := by
  rw [h.step_goUp hs hb hc, if_neg]
  intro hspent
  simp only [Bool.and_eq_true, Bool.not_eq_true'] at hspent
  obtain ⟨⟨hreclaim, hal⟩, hempty⟩ := hspent
  rw [hreclaim, hal] at hkeep
  exact (hkeep.resolve_left nofun).resolve_left nofun ((EntryArray.isEmpty_iff _ _).mp hempty)

theorem At.detach (h : At S s start stop m l a x) (hb : Level.Below child l)
    (hsite : Site S m s (l.path x) a (l.index x)) (hc : At S s start stop m child b x)
    (hvac : Site.Vacant m A.codec b) :
    At S s start stop (m.detach a (l.index x) b) l a x := by
  have hbelow := hc.arrayAt_below hb
  have hdepth := hb.length_path_lt x
  refine ⟨hsite.intact_detach hbelow hvac hdepth, h.mem, h.inside, ?_⟩
  rw [hsite.arrayAt_detach hbelow hvac h.mem hdepth.le, if_neg, h.arrayAt_eq]
  exact fun hself => List.cons_ne_self _ _ hself.2.symm

/-! ## Walks that stop on the way -/

theorem lt_slotEnd (hx : Inside start stop x) (l : Level) : x.toNat < slotEnd stop l x.toNat :=
  lt_min ((Nat.div_lt_iff_lt_mul (Nat.two_pow_pos _)).mp (Nat.lt_succ_self _)) hx.lt_pageEnd

theorem slotEnd_aligned (stop : Word) (l : Level) (n : Nat) : slotEnd stop l n % 4096 = 0 := by
  have hblock := l.block_aligned (n / 2 ^ l.shift + 1)
  have hend : pageEnd stop % 4096 = 0 := Nat.mul_mod_left _ _
  rcases min_choice ((n / 2 ^ l.shift + 1) * 2 ^ l.shift) (pageEnd stop) with h | h
  · rwa [slotEnd, h]
  · rwa [slotEnd, h]

theorem slotEnd_le (hb : Level.Below child l) (stop : Word) (n : Nat) :
    slotEnd stop child n ≤ slotEnd stop l n := by
  apply min_le_min_right
  rw [hb.shift_eq, pow_add, ← Nat.div_div_eq_div_mul]
  generalize n / 2 ^ child.shift = k
  rw [Nat.mul_comm (2 ^ child.shift), ← Nat.mul_assoc]
  apply Nat.mul_le_mul_right
  omega

theorem Inside.of_lt_slotEnd (hx : Inside start stop x) (hxy : x.toNat ≤ y.toNat)
    (hy : y.toNat % 4096 = 0) (hlt : y.toNat < slotEnd stop l x.toNat) :
    Inside start stop y ∧ y.toNat / 2 ^ l.shift = x.toNat / 2 ^ l.shift := by
  obtain ⟨hblock, hend⟩ := lt_min_iff.mp hlt
  refine ⟨⟨hx.le.trans hxy, by unfold pageEnd at hend; omega, hy⟩, ?_⟩
  exact Nat.le_antisymm (Nat.le_of_lt_succ ((Nat.div_lt_iff_lt_mul (Nat.two_pow_pos _)).mpr hblock))
    (Nat.div_le_div_right hxy)

def Within (start stop : Word) (l : Level) (x : Word) (n : Nat) : Prop :=
  n = slotEnd stop l x.toNat ∨
    ∃ y, Inside start stop y ∧ y.toNat = n ∧ y.toNat / 2 ^ l.shift = x.toNat / 2 ^ l.shift

theorem Inside.within_slotEnd (hx : Inside start stop x) (hb : Level.Below child l) :
    Within start stop l x (slotEnd stop child x.toNat) := by
  rcases (slotEnd_le hb stop x.toNat).eq_or_lt with heq | hlt
  · exact Or.inl heq
  · have hend : slotEnd stop child x.toNat ≤ pageEnd stop := min_le_right _ _
    have hstop := stop.isLt
    have haligned := slotEnd_aligned stop child x.toNat
    obtain ⟨y, hy⟩ : ∃ y : Word, y.toNat = slotEnd stop child x.toNat := by
      have hlast : pageEnd stop ≤ 2 ^ 64 := by unfold pageEnd; omega
      have hshort : slotEnd stop l x.toNat ≤ pageEnd stop := min_le_right _ _
      exact ⟨.ofNatLT _ (by omega), BitVec.toNat_ofNatLT _ _⟩
    obtain ⟨hin, hblock⟩ := hx.of_lt_slotEnd (hy ▸ (lt_slotEnd hx child).le) (by omega) (hy ▸ hlt)
    exact Or.inr ⟨y, hin, hy, hblock⟩

theorem At.endsAs_detach (hs : Scope S s plan start) (h : At S s start plan.stop m l a x)
    (hb : Level.Below child l) (hc : At S s start plan.stop m child b x)
    (hreclaim : plan.reclaim = true) (hal : plan.visitor.allocates = false)
    (hvac : Site.Vacant m A.codec b) {n : Nat} (hn : Within start plan.stop l x n) :
    EndsAs (plan.next s) ⟨child.path x, n, r, m⟩
      ⟨l.path x, slotEnd plan.stop l x.toNat, r, m.detach a (l.index x) b⟩ := by
  induction hk : 2 ^ 64 - n using Nat.strong_induction_on generalizing n with
  | h k ih =>
    rcases hn with rfl | ⟨y, hy, rfl, hxy⟩
    · apply (EndsAs.refl _ _).step
      rw [h.step_goUp hs hb hc, if_pos]
      rw [hreclaim, hal, (EntryArray.isEmpty_iff _ _).mpr hvac]
      rfl
    · have hpath : child.path y = child.path x := Level.path_congr (by rwa [← hb.shift_eq])
      have hcy : At S s start plan.stop m child b y :=
        ⟨h.intact, h.mem, hy, hpath ▸ hc.arrayAt_eq⟩
      have hskip := hcy.step_skip (r := r) hs hal (hvac _)
      rw [hpath] at hskip
      have hlt := lt_slotEnd hy child
      have hyword := y.isLt
      refine EndsAs.trans ((EndsAs.refl _ _).step hskip) (ih _ (by omega) ?_ rfl)
      have hwithin := hy.within_slotEnd hb
      unfold Within at hwithin ⊢
      rwa [slotEnd_congr hxy, hxy] at hwithin

/-- A walk may be stopped at a page of its range, or at its end. -/
def Halfway (mid stop : Word) : Prop :=
  mid = stop ∨ mid.toNat % 4096 = 0 ∧ mid.toNat < stop.toNat

theorem Halfway.le {mid : Word} (h : Halfway mid stop) : mid.toNat ≤ stop.toNat :=
  h.elim (fun he => he ▸ le_rfl) fun hlt => hlt.2.le

/-- A cursor that moved on is at the end of its slot, or the walk is stopped within the slot. -/
theorem Past.seen_cases {mid : Word} (hx : Inside start mid x) (hpast : Past mid l.shift x y)
    (hmid : Halfway mid stop) : seen mid y = slotEnd stop l x.toNat ∨
      Inside start stop mid ∧ mid.toNat = seen mid y ∧
        mid.toNat / 2 ^ l.shift = x.toNat / 2 ^ l.shift := by
  have hlt := hx.lt
  have hbound := hpast.bound
  obtain ⟨haligned, hseen⟩ := hpast.seen_eq l.twelve_le_shift
  rcases hmid with rfl | ⟨hmidal, hmidlt⟩
  · left
    have hblock := slotEnd_aligned mid l x.toNat
    have hreach := hpast.reach
    unfold slotEnd seen pageEnd at *
    omega
  · have hend : pageEnd mid = mid.toNat := by unfold pageEnd; omega
    have hfar : mid.toNat < pageEnd stop := by unfold pageEnd; omega
    have hin : Inside start stop x := ⟨hx.le, hlt.trans hmidlt, hx.aligned⟩
    by_cases hslot : mid.toNat < slotEnd stop l x.toNat
    · obtain ⟨hmidin, hblock⟩ := hin.of_lt_slotEnd hlt.le hmidal hslot
      have hreach := hpast.reach
      have hstop := (lt_min_iff.mp hslot).1
      refine Or.inr ⟨hmidin, ?_, hblock⟩
      unfold seen
      omega
    · left
      have hreach := hpast.reach
      unfold slotEnd seen at *
      omega

theorem At.step_visit {u : Visit α} (hs : Scope S s plan start)
    (h : At S s start plan.stop m .pte a x)
    (hval : A.codec.isValid (m.entry a (Level.pte.index x)) = true ∨
      plan.visitor.allocates = true)
    (hu : plan.visitor.visit x (m.entry a (Level.pte.index x)) r = .ok u)
    (hgo : u.proceed = true) : plan.next s ⟨Level.pte.path x, x.toNat, r, m⟩ =
      .inl ⟨Level.pte.path x, x.toNat + 4096, u.result,
        u.entry.elim m (m.setEntry a (Level.pte.index x))⟩ := by
  rw [h.step_visitPage hs hval, Plan.visitPage]
  dsimp only
  rw [hu]
  exact if_pos hgo

theorem At.step_abort {e : Abort} (hs : Scope S s plan start)
    (h : At S s start plan.stop m .pte a x)
    (hval : A.codec.isValid (m.entry a (Level.pte.index x)) = true ∨
      plan.visitor.allocates = true)
    (he : plan.visitor.visit x (m.entry a (Level.pte.index x)) r = .error e) :
    plan.next s ⟨Level.pte.path x, x.toNat, r, m⟩ = .inr (.error (.abort e), m) := by
  rw [h.step_visitPage hs hval, Plan.visitPage]
  dsimp only
  rw [he]

/-! ### Where the whole run is

The run of the whole walk from a state `σ` on ends as it does from the place to which the walk that
stops at `mid` has come. Each step of the walk that stops keeps this up.
-/

section Halfway

variable {mid : Word} {σ : Place α} {u : Visit α} (hs : Scope S s plan start)
  (hmid : Halfway mid plan.stop)

include hs hmid

theorem At.endsAs_visited (h : At S s start mid m .pte a x) (hmidle : mid.toNat ≤ 2 ^ 64 - 4096)
    (hval : A.codec.isValid (m.entry a (Level.pte.index x)) = true ∨
      plan.visitor.allocates = true)
    (hu : plan.visitor.visit x (m.entry a (Level.pte.index x)) r = .ok u)
    (hgo : u.proceed = true)
    (hf : EndsAs (plan.next s) σ ⟨Level.pte.path x, seen mid x, r, m⟩) :
    EndsAs (plan.next s) σ ⟨Level.pte.path x, seen mid (x + pageSize), u.result,
      u.entry.elim m (m.setEntry a (Level.pte.index x))⟩ := by
  rw [h.inside.seen_eq] at hf
  rw [h.inside.seen_add hmidle]
  exact hf.step ((h.mono hmid.le).step_visit hs hval hu hgo)

theorem At.endsAs_free (h : At S s start plan.stop m l a x) (hx : Inside start mid x)
    (hpast : Past mid l.shift x y) (hal : plan.visitor.allocates = false)
    (hv : A.codec.isValid (m.entry a (l.index x)) = false)
    (hf : EndsAs (plan.next s) σ ⟨l.path x, slotEnd plan.stop l x.toNat, r, m⟩) :
    EndsAs (plan.next s) σ ⟨l.path x, seen mid y, r, m⟩ := by
  rcases hpast.seen_cases hx hmid with hend | ⟨hin, hseen, hblock⟩
  · rwa [hend]
  · have hskip := (h.move hin hblock).step_skip (r := r) hs hal
      (by rwa [Level.index_congr hblock])
    rw [Level.path_congr_slot hblock, slotEnd_congr hblock, hseen] at hskip
    exact hf.back hskip

/-- An array that is kept is left at the end of its slot. Stopped within the slot, the whole run
would go down to the same array again. -/
theorem At.endsAs_left (h : At S s start plan.stop m l a x) (hx : Inside start mid x)
    (hb : Level.Below child l) (hc : At S s start plan.stop m child b x)
    (hpast : Past mid l.shift x y)
    (hkeep : plan.reclaim = false ∨ plan.visitor.allocates = true ∨ ¬ Site.Vacant m A.codec b)
    (hf : EndsAs (plan.next s) σ ⟨child.path x, seen mid y, r, m⟩) :
    EndsAs (plan.next s) σ ⟨l.path x, seen mid y, r, m⟩ := by
  rcases hpast.seen_cases hx hmid with hend | ⟨hin, hseen, hblock⟩
  · rw [hend] at hf ⊢
    exact hf.step (h.step_leave hs hb hc hkeep)
  · have hpath : child.path mid = child.path x := Level.path_congr (by rwa [← hb.shift_eq])
    have henter := (h.move hin hblock).step_enter (r := r) hs hb
      ⟨hc.intact, hc.mem, hin, hpath ▸ hc.arrayAt_eq⟩
    rw [Level.path_congr_slot hblock, hpath, hseen] at henter
    exact hf.back henter

/-- The whole run finds the rest of a vacant array vacant, and the slot is free afterwards. -/
theorem At.endsAs_detached (h : At S s start plan.stop m l a x) (hx : Inside start mid x)
    (hb : Level.Below child l) (hsite : Site S m s (l.path x) a (l.index x))
    (hc : At S s start plan.stop m child b x) (hpast : Past mid l.shift x y)
    (hreclaim : plan.reclaim = true) (hal : plan.visitor.allocates = false)
    (hvac : Site.Vacant m A.codec b)
    (hf : EndsAs (plan.next s) σ ⟨child.path x, seen mid y, r, m⟩) :
    EndsAs (plan.next s) σ ⟨l.path x, seen mid y, r, m.detach a (l.index x) b⟩ := by
  have hwithin : Within start plan.stop l x (seen mid y) :=
    (hpast.seen_cases hx hmid).imp_right (Exists.intro mid)
  apply (h.detach hb hsite hc hvac).endsAs_free hs hmid hx hpast hal
  · rw [hsite.entry_detach, if_pos ⟨rfl, rfl⟩, A.lawful.isValid_zero]
  · exact hf.trans (h.endsAs_detach hs hb hc hreclaim hal hvac hwithin)

end Halfway

/-- A walk that stops halfway has come to a place of the whole run. -/
theorem Keeps.endsAs {J : List (Fin 512) → Word → α → Memory → Prop} {K : α → Memory → Prop}
    {E : Stop → Memory → Prop} (mid : Word) (hs : Scope S s plan start)
    (hmidle : mid.toNat ≤ 2 ^ 64 - 4096) (hmid : Halfway mid plan.stop)
    (hk : Keeps S s (plan.upTo mid) start J K E) (hsweep : plan.visitor.Sweeps A)
    (hmapped : plan.visitor.allocates = true → ∀ {p x r m}, J p x r m → ∀ z,
      Inside start mid z → z.toNat < x.toNat → A.codec.isValid (s.leafAt m z) = true)
    (σ : Place α) :
    Keeps S s (plan.upTo mid) start
      (fun p x r m => J p x r m ∧
        EndsAs (plan.next s) σ ⟨p, seen (plan.upTo mid).stop x, r, m⟩)
      (fun _ _ => False)
      (fun e m => E e m ∧ Halts (plan.next s) σ (.error e, m)) where
  skip := by
    rintro m l a x y r ha hal hv hpast ⟨hj, hf⟩
    have ha' := ha.mono hmid.le
    rw [ha.inside.seen_eq] at hf
    exact ⟨hk.skip ha hal hv hpast hj, ha'.endsAs_free hs hmid ha.inside hpast hal hv
      (hf.step (ha'.step_skip hs hal hv))⟩
  visit := by
    rintro m a x r u ha hval hu hentry ⟨hj, hf⟩
    have hgo := hsweep.proceeds hu
    have hafter := hk.visit ha hval hu hentry hj
    have hvisited := ha.endsAs_visited hs hmid hmidle hval hu hgo hf
    rw [hentry] at hvisited
    rw [After, if_pos hgo] at hafter ⊢
    exact ⟨hafter, hvisited⟩
  write := by
    rintro m a x r u w ha hsite hval hu hentry ⟨hj, hf⟩
    have hgo := hsweep.proceeds hu
    have hafter := hk.write ha hsite hval hu hentry hj
    have hvisited := ha.endsAs_visited hs hmid hmidle hval hu hgo hf
    rw [hentry] at hvisited
    rw [After, if_pos hgo] at hafter ⊢
    exact ⟨hafter, hvisited⟩
  abort := by
    rintro m a x r e ha hval he ⟨hj, hf⟩
    refine ⟨hk.abort ha hval he hj, ?_⟩
    rw [ha.inside.seen_eq] at hf
    exact hf.halt ((ha.mono hmid.le).step_abort hs hval he)
  full := by
    rintro m l child a x r hb ha hal hv hfull ⟨hj, hf⟩
    refine ⟨hk.full hb ha hal hv hfull hj, ?_⟩
    rw [ha.inside.seen_eq] at hf
    exact hf.halt ((ha.mono hmid.le).step_full hs hb hal hv hfull)
  attach := by
    rintro m l child a x r w hb ha hsite hal hv hroom hnew hw ⟨hj, hf⟩
    refine ⟨hk.attach hb ha hsite hal hv hroom hnew hw hj, ?_⟩
    rw [ha.inside.seen_eq] at hf ⊢
    exact hf.step ((ha.mono hmid.le).step_attach hs hb hal hv hroom hw)
  enter := by
    rintro m l child a b x r hb ha hc ⟨hj, hf⟩
    refine ⟨hk.enter hb ha hc hj, ?_⟩
    rw [ha.inside.seen_eq] at hf ⊢
    exact hf.step ((ha.mono hmid.le).step_enter hs hb (hc.mono hmid.le))
  leave hb ha hc hpast hkeep hj :=
    ⟨hk.leave hb ha hc hpast hkeep hj.1, (ha.mono hmid.le).endsAs_left hs hmid ha.inside hb
      (hc.mono hmid.le) hpast hkeep hj.2⟩
  detach := by
    rintro m l child a b x y r hb ha hsite hc hreclaim hpast hvac ⟨hj, hf⟩
    refine ⟨hk.detach hb ha hsite hc hreclaim hpast hvac hj, (ha.mono hmid.le).endsAs_detached hs
      hmid ha.inside hb hsite (hc.mono hmid.le) hpast hreclaim ?_ hvac hf⟩
    -- A walk that allocates leaves mapped pages behind, and so no array is vacant.
    rw [← Bool.not_eq_true]
    intro hal
    exact not_vacant_of_valid hc (hmapped hal hj x ha.inside (hpast.lt ha.inside)) hvac

theorem range_endsAs (mid : Word) (hs : Scope S s plan start)
    (hs' : Scope S s (plan.upTo mid) start) (hmid : Halfway mid plan.stop)
    (hsweep : plan.visitor.Sweeps A) (hi : Intact S m) (r : α)
    (hp : ((range (plan.upTo mid) s.root start r).final m).Placed A.codec) :
    let act := range (plan.upTo mid) s.root start r
    (∀ r', act.outcome m = .ok r' → Intact S (act.final m) ∧
      EndsAs (plan.next s) ⟨[], start.toNat, r, m⟩ ⟨[], pageEnd mid, r', act.final m⟩) ∧
    ∀ e, act.outcome m = .error e →
      Halts (plan.next s) ⟨[], start.toNat, r, m⟩ (.error e, act.final m) := by
  intro act
  have hkeeps := (Keeps.pages hs' (.mapped hsweep.maps)).endsAs mid hs hs'.accepted.stop_le hmid hsweep
    (fun hal {p x r m} hj z hz hlt => hj hal z hz (hz.lt_seen hlt)) ⟨[], start.toNat, r, m⟩
  have htriple := range_triple hs' hkeeps r
  have hpre : Intact S m ∧ (plan.visitor.allocates = true → ∀ z, Inside start mid z →
      z.toNat < seen mid start → A.codec.isValid (s.leafAt m z) = true) ∧
      EndsAs (plan.next s) ⟨[], start.toNat, r, m⟩ ⟨[], seen mid start, r, m⟩ := by
    rw [show seen mid start = start.toNat from hs'.accepted.seen_start]
    exact ⟨hi, fun _ z hz hlt => absurd hz.le (Nat.not_le.mpr hlt), .refl _ _⟩
  constructor
  · intro r' hok
    obtain ⟨hi', ⟨y, hy, -, hf⟩ | hf⟩ := htriple.of_ok hpre hp hok
    · have hend : seen mid y = pageEnd mid := seen_of_stop_le hy
      exact ⟨hi', hend ▸ hf⟩
    · exact hf.elim
  · intro e he
    exact (htriple.of_error hpre hp he).2.2

/-- A walk halts as its run does. -/
theorem range_halts (hs : Scope S s plan start) (hsweep : plan.visitor.Sweeps A)
    (hi : Intact S m) (r : α) (hp : ((range plan s.root start r).final m).Placed A.codec) :
    Halts (plan.next s) ⟨[], start.toNat, r, m⟩
      ((range plan s.root start r).outcome m, (range plan s.root start r).final m) := by
  obtain ⟨hok, herror⟩ := range_endsAs plan.stop hs hs (Or.inl rfl) hsweep hi r hp
  cases hout : (range plan s.root start r).outcome m with
  | error e => exact herror e hout
  | ok r' =>
    apply (hok r' hout).2.halt
    refine if_neg fun h => ?_
    have hlt : pageEnd plan.stop < plan.stop.toNat := h.1
    unfold pageEnd at hlt
    omega

end Walk

end Sandbox
