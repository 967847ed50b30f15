import Sandbox.Proofs.Walk.Rule

/-! # Slots and the cursor

An array is walked by a count of its slots, while the cursor that all levels share is moved by
pages, by whole slots without an array, and by the walks below. The two never drift apart: after
each slot the cursor is at the first address of the next one, or the range is over. So a walk that
checks this after every slot, and its cursor before every addition, is the same walk.
-/

namespace Sandbox

namespace Action

variable {σ β γ : Type} {P : β → Prop} {Q : γ → Prop} {act : Action σ β} {f g : β → Action σ γ}

structure Yields (P : β → Prop) (act : Action σ β) : Prop where
  of_ok : ∀ {s t y}, act s = .ok y t → P y

namespace Yields

theorem pure {y : β} (h : P y) : Yields P (Pure.pure y : Action σ β) := by
  constructor
  intro s t z hz
  cases hz
  exact h

theorem throw (e : Stop) : Yields P (MonadExcept.throw e : Action σ β) := by
  constructor
  intro s t z hz
  cases hz

theorem lift {x : Except Abort β} (h : ∀ y, x = .ok y → P y) :
    Yields P (liftM x : Action σ β) := by
  cases x with
  | ok y => exact pure (h y rfl)
  | error a => exact throw (.abort a)

theorem bind (h : Yields P act) (hf : ∀ y, P y → Yields Q (f y)) : Yields Q (act >>= f) := by
  constructor
  intro s t z hz
  obtain ⟨y, u, hy, hfy⟩ := ok_of_bind hz
  exact (hf y (h.of_ok hy)).of_ok hfy

theorem bind_last (hf : ∀ y, Yields Q (f y)) : Yields Q (act >>= f) :=
  bind (P := fun _ => True) ⟨fun _ => trivial⟩ fun y _ => hf y

theorem ite {p : Prop} [Decidable p] {act' : Action σ β} (ht : p → Yields P act)
    (hf : ¬ p → Yields P act') : Yields P (if p then act else act') := by
  split
  · exact ht ‹_›
  · exact hf ‹_›

theorem bind_congr (h : Yields P act) (hfg : ∀ y, P y → f y = g y) : act >>= f = act >>= g := by
  funext s
  cases hact : act s with
  | ok y t => rw [bind_run hact, bind_run hact, hfg y (h.of_ok hact)]
  | error e t => rw [bind_run_error hact, bind_run_error hact]

theorem bind_pure_of {f : β → Action σ β} (h : Yields P act) (hf : ∀ y, P y → f y = Pure.pure y) :
    act >>= f = act :=
  (h.bind_congr hf).trans (bind_pure act)

end Yields

end Action

/-- An allocating walk is made for visitors that leave each page mapped after which they go on. -/
def Visitor.Fills {α : Type} (c : EntryCodec) (v : Visitor α) : Prop :=
  v.allocates = true → ∀ {x w r u}, v.visit x w r = .ok u → u.proceed = true →
    c.isValid (u.entry.getD w) = true

namespace Walk

variable {α : Type} {plan : Plan α} {l child : Level} {start stop x y z : Word}
  {a : PhysicalAddress} {i : Fin 512} {p : Pass α} {r : α} {n : Nat}

/-! ## Where the cursor is -/

def slotStart (l : Level) (x : Word) (n : Nat) : Nat :=
  x.toNat / 2 ^ (l.shift + 9) * 2 ^ (l.shift + 9) + n * 2 ^ l.shift

/-- After a slot of the array that covers `x`, the cursor is at the end of the range or past it, or
at the first address of the next slot, which is cut down to the highest word. -/
def InStep (stop : Word) (l : Level) (x : Word) (i : Fin 512) (y : Word) : Prop :=
  stop ≤ y ∨ y.toNat = min (slotStart l x (i.val + 1)) (2 ^ 64 - 1)

instance (stop : Word) (l : Level) (x : Word) (i : Fin 512) (y : Word) :
    Decidable (InStep stop l x i y) :=
  inferInstanceAs (Decidable (_ ∨ _))

structure Arrived (start stop : Word) (l : Level) (x : Word) (i : Fin 512) (y : Word) : Prop where
  inside : Inside start stop y
  slot : y.toNat / 2 ^ l.shift = x.toNat / 2 ^ (l.shift + 9) * 512 + i.val

/-- A pass that goes on from a slot of `2 ^ k` bytes has left it, or the range. -/
def Onward (stop : Word) (k : Nat) (p p' : Pass α) : Prop :=
  p'.running = true → Past stop k p.cursor p'.cursor

theorem Reaches.arrived (h : Reaches stop l x (n + 1) y) (hx : start.toNat ≤ x.toNat)
    (hlt : y.toNat < stop.toNat) : Arrived start stop l x (Fin.ofNat 512 (511 - n)) y := by
  obtain ⟨haligned, hslot⟩ := h.slot.resolve_left (Nat.not_le.mpr hlt)
  refine ⟨⟨hx.trans h.le, hlt, haligned⟩, ?_⟩
  have hlow : x.toNat / 2 ^ l.shift ≤ y.toNat / 2 ^ l.shift := Nat.div_le_div_right h.le
  have hblock := l.block_eq x
  simp only [Fin.val_ofNat]
  omega

theorem Arrived.inStep (h : Arrived start stop l x i y) (hp : Past stop l.shift y z) :
    InStep stop l x i z := by
  rcases hp.reach with hstop | hend
  · exact Or.inl hstop
  · have hz := z.isLt
    have hstart : slotStart l x (i.val + 1) = z.toNat := by
      rw [hend, h.slot, slotStart, Nat.add_assoc, Nat.add_mul _ (i.val + 1), Nat.mul_assoc,
        Nat.mul_comm 512, pow_add _ _ 9, show 2 ^ 9 = 512 from rfl]
    right
    rw [hstart]
    omega

/-! ## What the steps yield -/

theorem yields_page {Q : Pass α → Prop}
    (hmove : ∀ y r, Word.add p.cursor pageSize = .ok y → Q { p with cursor := y, result := r })
    (hstop : ∀ r, Q { p with result := r, running := false }) (a : PhysicalAddress)
    (i : Fin 512) : (page plan a i p).Yields Q := by
  have hgo (r : α) : Action.Yields Q (do
      return { p with cursor := ← Word.add p.cursor pageSize, result := r } :
        Action Memory (Pass α)) :=
    .bind (.lift fun _ hy => hy) fun y hy => .pure (hmove y r hy)
  apply Action.Yields.bind_last
  intro word
  apply Action.Yields.ite
  · intro _
    apply Action.Yields.bind_last
    intro v
    cases v.entry with
    | none => exact .ite (fun _ => hgo v.result) fun _ => .pure (hstop v.result)
    | some w =>
      exact .bind_last fun _ => .ite (fun _ => hgo v.result) fun _ => .pure (hstop v.result)
  · exact fun _ => hgo p.result

theorem yields_descend {Q : Pass α → Prop}
    {walk : PhysicalAddress → Pass α → Action Memory (Pass α)} (hw : ∀ b, (walk b p).Yields Q)
    (word : Word) (allocated : Bool) :
    (descend plan child walk a i word allocated p).Yields Q := by
  apply Action.Yields.bind_last
  intro b
  apply (hw b).bind
  intro p' hp'
  apply Action.Yields.ite
  · intro _
    apply Action.Yields.bind_last
    intro m
    exact .ite (fun _ => .bind_last fun _ => .bind_last fun _ => .bind_last fun _ => .pure hp')
      fun _ => .pure hp'
  · exact fun _ => .pure hp'

theorem yields_slot {Q : Pass α → Prop}
    {walk : PhysicalAddress → Pass α → Action Memory (Pass α)} (hw : ∀ b, (walk b p).Yields Q)
    (hskip : Q { p with cursor := nextBlock p.cursor l.size }) :
    (slot plan l child walk a i p).Yields Q := by
  apply Action.Yields.bind_last
  intro word
  apply Action.Yields.ite
  · exact fun _ => .ite (fun _ => yields_descend hw word false) fun _ => .throw _
  · intro _
    apply Action.Yields.ite
    · exact fun _ => .bind_last fun _ => .bind_last fun w => .bind_last fun _ =>
        .bind_last fun _ => yields_descend hw w true
    · exact fun _ => .pure hskip

theorem page_onward (ha : Accepted start stop) (hp : Inside start stop p.cursor)
    (a : PhysicalAddress) (i : Fin 512) :
    (page plan a i p).Yields (Onward stop Level.pte.shift p) := by
  refine yields_page (fun y r hy => ?_) (fun r h => nomatch h) a i
  rw [(hp.add ha.stop_le).1] at hy
  obtain rfl := Except.ok.inj hy
  exact fun _ => hp.past ha.stop_le

theorem slot_onward (ha : Accepted start stop) (hp : Inside start stop p.cursor)
    {walk : PhysicalAddress → Pass α → Action Memory (Pass α)}
    (hw : ∀ b, (walk b p).Yields (Onward stop l.shift p)) :
    (slot plan l child walk a i p).Yields (Onward stop l.shift p) :=
  yields_slot hw fun _ => .nextBlock hp ha.stop_le l

section Loop

variable {visit : Fin 512 → Pass α → Action Memory (Pass α)}

theorem slots_onward (hstart : start.toNat ≤ x.toNat)
    (hv : ∀ i p, Inside start stop p.cursor → (visit i p).Yields (Onward stop l.shift p)) :
    ∀ n p, (p.running = true → Reaches stop l x n p.cursor) → (slots stop visit n p).Yields
      fun p' => p'.running = true → Past stop (l.shift + 9) x p'.cursor := by
  intro n
  induction n with
  | zero => exact fun p hp => .pure fun hrun => (hp hrun).past_of_end
  | succ n ih =>
    intro p hp
    apply Action.Yields.ite
    · rintro ⟨hrun, hlt⟩
      apply (hv _ p ((hp hrun).arrived hstart hlt).inside).bind
      exact fun p' hp' => ih p' fun hrun' => (hp hrun).step hlt (hp' hrun')
    · exact fun hn => .pure fun hrun => (hp hrun).past_of_stop
        (Nat.le_of_not_lt fun hlt => hn ⟨hrun, hlt⟩)

/-- A loop that deals with its slots in another way is the same one, if it does so with those that
the cursor comes to. -/
theorem slots_congr {visit' : Fin 512 → Pass α → Action Memory (Pass α)}
    (hstart : start.toNat ≤ x.toNat)
    (hv : ∀ i p, Inside start stop p.cursor → (visit i p).Yields (Onward stop l.shift p))
    (h : ∀ i p, Arrived start stop l x i p.cursor → visit i p = visit' i p) :
    ∀ n p, (p.running = true → Reaches stop l x n p.cursor) →
      slots stop visit n p = slots stop visit' n p := by
  intro n
  induction n with
  | zero => exact fun _ _ => rfl
  | succ n ih =>
    intro p hp
    rw [slots, slots]
    split
    · next hgo =>
      have hreach := hp hgo.1
      have harrived := hreach.arrived hstart hgo.2
      rw [← h _ p harrived]
      exact (hv _ p harrived.inside).bind_congr fun p' hp' => ih p' fun hrun' =>
        hreach.step hgo.2 (hp' hrun')
    · rfl

end Loop

theorem array_onward (ha : Accepted start plan.stop) : ∀ (l : Level) (a : PhysicalAddress)
    (p : Pass α), Inside start plan.stop p.cursor →
    (array plan l a p).Yields (Onward plan.stop (l.shift + 9) p) := by
  apply Level.ascending
  · intro a p hp
    exact slots_onward hp.le (fun i p hp => page_onward ha hp a i) _ p
      fun _ => .refl hp.aligned
  · intro child l hb ih a p hp
    rw [array_below plan hb]
    refine slots_onward hp.le (fun i p hp => slot_onward ha hp fun b => ?_) _ p
      fun _ => .refl hp.aligned
    rw [hb.shift_eq]
    exact ih b p hp

/-- A slot above the pages is left by the walk of the array below it. -/
theorem slot_below_onward (hb : Level.Below child l) (ha : Accepted start plan.stop)
    (hp : Inside start plan.stop p.cursor) (a : PhysicalAddress) (i : Fin 512) :
    (slot plan l child (array plan child) a i p).Yields (Onward plan.stop l.shift p) :=
  slot_onward ha hp fun b => hb.shift_eq ▸ array_onward ha child b p hp

/-! ## Audited walks -/

/-- Deal with a slot, and sound the alarm if the cursor is out of step afterwards. -/
def audit (stop : Word) (l : Level) (x : Word)
    (alarm visit : Fin 512 → Pass α → Action Memory (Pass α)) :
    Fin 512 → Pass α → Action Memory (Pass α) := fun i p => do
  let p ← visit i p
  if p.running ∧ ¬ InStep stop l x i p.cursor then
    alarm i p
  else
    return p

/-- Visit one page slot. The alarm is sounded if the sum of the cursor and a page leaves the range
of a word, and if an allocating visit leaves the page unmapped. -/
def pageAudited (plan : Plan α) (alarm : Fin 512 → Pass α → Action Memory (Pass α))
    (array : PhysicalAddress) (i : Fin 512) (p : Pass α) : Action Memory (Pass α) := do
  if 2 ^ 64 ≤ p.cursor.toNat + pageSize.toNat then
    alarm i p
  else
    let word ← Memory.load array i
    if plan.codec.isValid word ∨ plan.visitor.allocates then
      let visit ← plan.visitor.visit p.cursor word p.result
      match visit.entry with
      | some w => Memory.store array i w
      | none => pure ()
      if visit.proceed then
        if plan.visitor.allocates ∧ ¬ plan.codec.isValid (visit.entry.getD word) then
          alarm i p
        else
          return { p with cursor := ← Word.add p.cursor pageSize, result := visit.result }
      else
        return { p with result := visit.result, running := false }
    else
      return { p with cursor := ← Word.add p.cursor pageSize }

def arrayAudited (plan : Plan α)
    (alarm : Level → PhysicalAddress → Fin 512 → Pass α → Action Memory (Pass α)) :
    Level → PhysicalAddress → Pass α → Action Memory (Pass α) :=
  Level.ascend
    (fun table p => slots plan.stop
      (audit plan.stop .pte p.cursor (alarm .pte table) (pageAudited plan (alarm .pte table) table))
      (512 - Level.pte.index p.cursor) p)
    (fun level child walkChild table p => slots plan.stop
      (audit plan.stop level p.cursor (alarm level table) (slot plan level child walkChild table))
      (512 - level.index p.cursor) p)

def rangeAudited (plan : Plan α)
    (alarm : Level → PhysicalAddress → Fin 512 → Pass α → Action Memory (Pass α))
    (root : PhysicalAddress) (start : Word) (result : α) : Action Memory α := do
  accept start plan.stop
  let p ← arrayAudited plan alarm .pgd root { cursor := start, result := result }
  return p.result

variable {alarm : Level → PhysicalAddress → Fin 512 → Pass α → Action Memory (Pass α)}

theorem arrayAudited_below (hb : Level.Below child l) (a : PhysicalAddress) (p : Pass α) :
    arrayAudited plan alarm l a p = slots plan.stop
      (audit plan.stop l p.cursor (alarm l a) (slot plan l child (arrayAudited plan alarm child) a))
      (512 - l.index p.cursor) p := by
  cases hb <;> rfl

theorem slot_congr {walk walk' : PhysicalAddress → Pass α → Action Memory (Pass α)}
    (h : ∀ b, walk b p = walk' b p) :
    slot plan l child walk a i p = slot plan l child walk' a i p := by
  simp only [slot, descend, h]

theorem Arrived.audit_eq {other visit : Fin 512 → Pass α → Action Memory (Pass α)}
    (h : Arrived start stop l x i p.cursor)
    (hv : (visit i p).Yields (Onward stop l.shift p)) :
    audit stop l x other visit i p = visit i p :=
  hv.bind_pure_of fun _ hp' => if_neg fun hout => hout.2 (h.inStep (hp' hout.1))

theorem pageAudited_eq {other : Fin 512 → Pass α → Action Memory (Pass α)}
    (hf : plan.visitor.Fills plan.codec) (ha : Accepted start plan.stop)
    (hp : Inside start plan.stop p.cursor) : pageAudited plan other a i p = page plan a i p := by
  have hsum : ¬ 2 ^ 64 ≤ p.cursor.toNat + pageSize.toNat := by
    have hlt := hp.lt
    have hstop := ha.stop_le
    rw [toNat_pageSize]
    omega
  rw [pageAudited, if_neg hsum, page]
  refine bind_congr fun word => ?_
  refine ite_congr rfl (fun _ => ?_) fun _ => rfl
  refine Action.Yields.bind_congr (.lift fun _ hu => hu) fun u hu => ?_
  have hfilled : u.proceed = true →
      ¬ (plan.visitor.allocates = true ∧ ¬ plan.codec.isValid (u.entry.getD word) = true) :=
    fun hgo hn => hn.2 (hf hn.1 hu hgo)
  cases hentry : u.entry with
  | none =>
    rw [hentry] at hfilled
    exact ite_congr rfl (fun hgo => if_neg (hfilled hgo)) fun _ => rfl
  | some w =>
    rw [hentry] at hfilled
    exact bind_congr fun _ => ite_congr rfl (fun hgo => if_neg (hfilled hgo)) fun _ => rfl

variable (alarm) in
theorem array_eq_audited (hf : plan.visitor.Fills plan.codec) (ha : Accepted start plan.stop) :
    ∀ (l : Level) (a : PhysicalAddress) (p : Pass α), start.toNat ≤ p.cursor.toNat →
      p.cursor.toNat % 4096 = 0 → array plan l a p = arrayAudited plan alarm l a p := by
  apply Level.ascending
  · intro a p hp haligned
    refine slots_congr hp (fun i p hin => page_onward ha hin a i) (fun i p hat => ?_) _ p
      fun _ => .refl haligned
    have hpage : pageAudited plan (alarm .pte a) a i p = page plan a i p :=
      pageAudited_eq hf ha hat.inside
    rw [hat.audit_eq (hpage ▸ page_onward ha hat.inside a i), hpage]
  · intro child l hb ih a p hp haligned
    rw [array_below plan hb, arrayAudited_below hb]
    refine slots_congr hp (fun i p hin => slot_below_onward hb ha hin a i) (fun i p hat => ?_) _ p
      fun _ => .refl haligned
    have hslot : slot plan l child (array plan child) a i p =
        slot plan l child (arrayAudited plan alarm child) a i p :=
      slot_congr fun b => ih b p hat.inside.le hat.inside.aligned
    rw [hat.audit_eq (hslot ▸ slot_below_onward hb ha hat.inside a i), hslot]

/-- No audited walk ever sounds the alarm. -/
theorem range_eq_audited (hf : plan.visitor.Fills plan.codec)
    (alarm : Level → PhysicalAddress → Fin 512 → Pass α → Action Memory (Pass α))
    (root : PhysicalAddress) (start : Word) (r : α) :
    range plan root start r = rangeAudited plan alarm root start r := by
  unfold range rangeAudited
  cases hacc : accept start plan.stop with
  | error e => rw [Action.lift_error_bind, Action.lift_error_bind]
  | ok u =>
    have ha := accept_eq_ok_iff.mp hacc
    rw [Action.lift_ok_bind, Action.lift_ok_bind,
      array_eq_audited alarm hf ha .pgd root _ le_rfl ha.aligned]

end Walk

end Sandbox
