import Sandbox.Tag.Owners

/-! # Laws of tag slots

The slots are a map from owners to tags, and each operation is given by what it does to
this map.
-/

namespace Sandbox

theorem OwnerId.compare_eq_iff {o o' : OwnerId} : compare o o' = .eq ↔ o = o' :=
  ⟨Std.LawfulEqOrd.eq_of_compare, fun h => h ▸ Std.ReflCmp.compare_self⟩

namespace Owners

variable {w w' : Owners} {o o' : OwnerId} {t : Asid}

theorem isLive_eq : w.isLive o = (w.tag? o).isSome :=
  Std.ExtTreeMap.contains_eq_isSome_getElem?

theorem isLive_iff : w.isLive o = true ↔ ∃ t, w.tag? o = some t := by
  rw [isLive_eq, Option.isSome_iff_exists]

theorem not_isLive_iff : w.isLive o = false ↔ w.tag? o = none := by
  rw [isLive_eq, Option.isSome_eq_false_iff, Option.isNone_iff_eq_none]

theorem tag_eq (h : w.tag? o = some t) : w.tag o = t := by
  rw [tag, h, Option.getD_some]

theorem tag?_create : w.create.tag? o = if w.next = o then some 0 else w.tag? o := by
  simp only [tag?, create, Std.ExtTreeMap.getElem?_insert, OwnerId.compare_eq_iff]

theorem tag?_drop : (w.drop o).tag? o' = if o = o' then none else w.tag? o' := by
  simp only [tag?, drop, Std.ExtTreeMap.getElem?_erase, OwnerId.compare_eq_iff]

theorem tag?_bind :
    (w.bind o t).tag? o' = if o = o' then (w.tag? o').map fun _ => t else w.tag? o' := by
  simp only [tag?, bind, Std.ExtTreeMap.getElem?_modify, OwnerId.compare_eq_iff]
  split
  · next h => rw [h]
  · rfl

@[simp] theorem next_bind : (w.bind o t).next = w.next := rfl

@[simp] theorem isLive_bind : (w.bind o t).isLive o' = w.isLive o' := by
  rw [isLive_eq, isLive_eq, tag?_bind]
  split
  · exact Option.isSome_map
  · rfl

@[ext] theorem ext_tag? (hnext : w.next = w'.next) (h : ∀ o, w.tag? o = w'.tag? o) : w = w' := by
  obtain ⟨next, slots⟩ := w
  obtain ⟨next', slots'⟩ := w'
  obtain rfl : next = next' := hnext
  exact congrArg (Owners.mk next) (Std.ExtTreeMap.ext_getElem? h)

/-- An owner that is gone has no slot to write. -/
theorem bind_of_not_isLive (h : w.isLive o = false) : w.bind o t = w := by
  ext o' : 1
  · rfl
  · rw [tag?_bind]
    split
    · next heq => rw [← heq, not_isLive_iff.mp h, Option.map_none]
    · rfl

theorem bind_self (h : w.tag? o = some t) : w.bind o t = w := by
  ext o' : 1
  · rfl
  · rw [tag?_bind]
    split
    · next heq => rw [← heq, h, Option.map_some]
    · rfl

theorem mem_holders : o ∈ w.holders t ↔ w.tag? o = some t := by
  simp only [holders, toList, tag?, List.mem_map, List.mem_filter, beq_iff_eq]
  constructor
  · rintro ⟨⟨o', t'⟩, ⟨hmem, rfl⟩, rfl⟩
    exact Std.ExtTreeMap.mem_toList_iff_getElem?_eq_some.mp hmem
  · intro h
    exact ⟨(o, t), ⟨Std.ExtTreeMap.mem_toList_iff_getElem?_eq_some.mpr h, rfl⟩, rfl⟩

def vacate (w : Owners) : Option OwnerId → Owners
  | some o => w.bind o 0
  | none => w

@[simp] theorem next_vacate {x : Option OwnerId} : (w.vacate x).next = w.next := by
  cases x <;> rfl

@[simp] theorem isLive_vacate {x : Option OwnerId} : (w.vacate x).isLive o = w.isLive o := by
  cases x with
  | none => rfl
  | some o' => exact isLive_bind

theorem tag?_vacate {x : Option OwnerId} :
    (w.vacate x).tag? o = if x = some o then (w.tag? o).map fun _ => 0 else w.tag? o := by
  cases x with
  | none => simp [vacate]
  | some o' => simp [vacate, tag?_bind]

end Owners

end Sandbox
