import Sandbox.Proofs.Walk.Cursor

/-! # Walks stay out of the hole

The indices of an address say nothing of its highest bits, so each address between the canonical
halves has the indices of some page. A walk never takes one for the other: it deals with no slot
while its cursor is in the hole. Whatever it would do there instead, it is the same walk.
-/

namespace Sandbox

namespace Walk

variable {α : Type} {plan : Plan α} {l child : Level} {start : Word} {i : Fin 512} {p : Pass α}

/-- Deal with a slot in another way if the cursor is not canonical. -/
def divert (other visit : Fin 512 → Pass α → Action Memory (Pass α)) :
    Fin 512 → Pass α → Action Memory (Pass α) :=
  fun i p => if Canonical.isCanonical p.cursor then visit i p else other i p

def arrayDiverted (plan : Plan α)
    (other : Level → PhysicalAddress → Fin 512 → Pass α → Action Memory (Pass α)) :
    Level → PhysicalAddress → Pass α → Action Memory (Pass α) :=
  Level.ascend
    (fun table p => slots plan.stop (divert (other .pte table) (page plan table))
      (512 - Level.pte.index p.cursor) p)
    (fun level child walkChild table p =>
      slots plan.stop (divert (other level table) (slot plan level child walkChild table))
        (512 - level.index p.cursor) p)

def rangeDiverted (plan : Plan α)
    (other : Level → PhysicalAddress → Fin 512 → Pass α → Action Memory (Pass α))
    (root : PhysicalAddress) (start : Word) (result : α) : Action Memory α := do
  accept start plan.stop
  let p ← arrayDiverted plan other .pgd root { cursor := start, result := result }
  return p.result

variable {other : Level → PhysicalAddress → Fin 512 → Pass α → Action Memory (Pass α)}

theorem arrayDiverted_below (hb : Level.Below child l) (a : PhysicalAddress) (p : Pass α) :
    arrayDiverted plan other l a p = slots plan.stop
      (divert (other l a) (slot plan l child (arrayDiverted plan other child) a))
      (512 - l.index p.cursor) p := by
  cases hb <;> rfl

theorem Arrived.divert_eq {x : Word} {other visit : Fin 512 → Pass α → Action Memory (Pass α)}
    (h : Arrived start plan.stop l x i p.cursor) (ha : Accepted start plan.stop) :
    divert other visit i p = visit i p :=
  if_pos (ha.isCanonical h.inside.le h.inside.lt)

variable (other) in
theorem array_eq_diverted (ha : Accepted start plan.stop) :
    ∀ (l : Level) (a : PhysicalAddress) (p : Pass α), start.toNat ≤ p.cursor.toNat →
      p.cursor.toNat % 4096 = 0 → array plan l a p = arrayDiverted plan other l a p := by
  apply Level.ascending
  · intro a p hp haligned
    exact slots_congr hp (fun i p hin => page_onward ha hin a i)
      (fun i p hat => (hat.divert_eq ha).symm) _ p fun _ => .refl haligned
  · intro child l hb ih a p hp haligned
    rw [array_below plan hb, arrayDiverted_below hb]
    refine slots_congr hp (fun i p hin => slot_below_onward hb ha hin a i) (fun i p hat => ?_) _ p
      fun _ => .refl haligned
    rw [hat.divert_eq ha]
    exact slot_congr fun b => ih b p hat.inside.le hat.inside.aligned

/-- No walk deals with a slot while its cursor is in the hole. -/
theorem range_eq_diverted (plan : Plan α)
    (other : Level → PhysicalAddress → Fin 512 → Pass α → Action Memory (Pass α))
    (root : PhysicalAddress) (start : Word) (r : α) :
    range plan root start r = rangeDiverted plan other root start r := by
  unfold range rangeDiverted
  cases hacc : accept start plan.stop with
  | error e => rfl
  | ok u =>
    have ha := accept_eq_ok_iff.mp hacc
    rw [Action.lift_ok_bind, Action.lift_ok_bind,
      array_eq_diverted other ha .pgd root _ le_rfl ha.aligned]

end Walk

end Sandbox
