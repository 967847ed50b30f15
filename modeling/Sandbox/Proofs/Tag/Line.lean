import Mathlib.Data.List.Dedup
import Sandbox.Proofs.Tag.Bindings

/-! # The line of owners

A pool serves its owners as if those that hold a tag stood in a line, the one that was served
last at the back. Here is the line without any pool: who is served with which tag, who loses it,
and how the line changes with each deed.
-/

namespace Sandbox

/-- Owners with the tags they hold. The one at the front was served longest ago. -/
abbrev Line := List (OwnerId × Asid)

namespace Line

variable (T : List Asid) (q : Line) (o : OwnerId) (t : Asid)

def tag? : Option Asid :=
  (q.find? fun b => b.1 == o).map Prod.snd

def vacant : List Asid :=
  T.filter fun t => ∀ b ∈ q, b.2 ≠ t

/-- The tag that an owner is served with: the one it holds already, or else the lowest vacant
one, or else the one of the owner at the front. -/
def turn : Option Asid :=
  (q.tag? o).or (((q.vacant T).argmin BitVec.toNat).or (q.head?.map Prod.snd))

def loser : Option OwnerId :=
  if q.tag? o = none ∧ q.vacant T = [] then q.head?.map Prod.fst else none

/-- Whoever holds a tag steps out of the line. -/
def without : Line :=
  q.filter fun b => b.2 ≠ t

def leave : Line :=
  q.filter fun b => b.1 ≠ o

/-- The line once an owner was served: it stands at the back. -/
def serve : Line :=
  match q.turn T o with
  | some t => q.without t ++ [(o, t)]
  | none => q

/-- The line once an owner was to be served, but got nothing in the end. -/
def forgo : Line :=
  match q.turn T o with
  | some t => q.without t
  | none => q

end Line

namespace Tagging.Deed

/-- What a deed does to the line. What the pool has answered has no part in it. -/
def advance (T : List Asid) : Deed → Line → Line
  | .assigned o _, q => q.serve T o
  | .aborted o, q => q.forgo T o
  | .released o _, q => q.leave o
  | .dropped o, q => q.leave o
  | _, q => q

/-- The line after the deeds `l`, the latest of which comes first. -/
def lineUp (T : List Asid) (l : List Deed) : Line :=
  l.foldr (advance T) []

def owner? : Deed → Option OwnerId
  | .assigned o _ | .aborted o | .released o _ | .lookedUp o _ | .dropped o => some o
  | .created | .rigged _ => none

def loser (T : List Asid) (q : Line) : Deed → Option OwnerId
  | .assigned o _ | .aborted o => q.loser T o
  | _ => none

def served? : Deed → Option OwnerId
  | .assigned o _ => some o
  | _ => none

end Tagging.Deed

/-! ## Laws of the line -/

theorem dedup_concat {α : Type} [DecidableEq α] (l : List α) (a : α) :
    (l ++ [a]).dedup = (l.dedup.filter fun b => b ≠ a) ++ [a] := by
  induction l with
  | nil => simp
  | cons b l ih =>
    by_cases hb : b ∈ l
    · simp [hb, ih]
    · by_cases hba : b = a
      · subst hba
        simp [hb, ih]
      · simp [hb, hba, ih]

namespace Line

variable {T : List Asid} {q : Line} {o o' : OwnerId} {t t' : Asid}

structure Single (q : Line) : Prop where
  owners : (q.map Prod.fst).Nodup
  tags : (q.map Prod.snd).Nodup

theorem mem_vacant : t ∈ q.vacant T ↔ t ∈ T ∧ ∀ o, (o, t) ∉ q := by
  simp only [vacant, List.mem_filter, decide_eq_true_eq, Prod.forall]
  refine and_congr_right fun _ => ⟨fun h o hmem => h o t hmem rfl, ?_⟩
  rintro h o _ hmem rfl
  exact h o hmem

theorem mem_without : (o, t) ∈ q.without t' ↔ (o, t) ∈ q ∧ t ≠ t' := by
  simp [without]

theorem mem_leave : (o, t) ∈ q.leave o' ↔ (o, t) ∈ q ∧ o ≠ o' := by
  simp [leave]

theorem tag?_eq_none_iff : q.tag? o = none ↔ ∀ t, (o, t) ∉ q := by
  simp only [tag?, Option.map_eq_none_iff, List.find?_eq_none, beq_iff_eq]
  constructor
  · exact fun h t ht => h (o, t) ht rfl
  · rintro h ⟨o', t⟩ hb rfl
    exact h t hb

namespace Single

theorem tag_unique (h : q.Single) (ht : (o, t) ∈ q) (ht' : (o, t') ∈ q) : t = t' :=
  congrArg Prod.snd (List.inj_on_of_nodup_map h.owners ht ht' rfl)

theorem owner_unique (h : q.Single) (ho : (o, t) ∈ q) (ho' : (o', t) ∈ q) : o = o' :=
  congrArg Prod.fst (List.inj_on_of_nodup_map h.tags ho ho' rfl)

theorem tag?_eq_some_iff (h : q.Single) : q.tag? o = some t ↔ (o, t) ∈ q := by
  constructor
  · intro ht
    obtain ⟨⟨o', t'⟩, hb, rfl⟩ := Option.map_eq_some_iff.mp ht
    obtain rfl : o' = o := by simpa using List.find?_some hb
    exact List.mem_of_find?_eq_some hb
  · intro hmem
    cases ht : q.tag? o with
    | none => exact absurd hmem (tag?_eq_none_iff.mp ht t)
    | some t' =>
      obtain ⟨⟨o', t''⟩, hb, rfl⟩ := Option.map_eq_some_iff.mp ht
      obtain rfl : o' = o := by simpa using List.find?_some hb
      exact congrArg some (h.tag_unique (List.mem_of_find?_eq_some hb) hmem)

theorem without (h : q.Single) (t : Asid) : (q.without t).Single :=
  ⟨h.owners.sublist (List.filter_sublist.map _), h.tags.sublist (List.filter_sublist.map _)⟩

theorem leave (h : q.Single) (o : OwnerId) : (q.leave o).Single :=
  ⟨h.owners.sublist (List.filter_sublist.map _), h.tags.sublist (List.filter_sublist.map _)⟩

theorem not_mem_without (h : q.Single) (ht : q.turn T o = some t) : (o, t') ∉ q.without t := by
  intro hmem
  obtain ⟨hmem, hne⟩ := mem_without.mp hmem
  rw [turn, h.tag?_eq_some_iff.mpr hmem, Option.some_or] at ht
  exact hne (Option.some.inj ht)

theorem loser_eq_some_iff (h : q.Single) (ht : q.turn T o = some t) (ho : o' ≠ o) :
    q.loser T o = some o' ↔ (o', t) ∈ q := by
  unfold turn at ht
  unfold loser
  cases hown : q.tag? o with
  | some s =>
    obtain rfl : s = t := by simpa [hown] using ht
    have hs := h.tag?_eq_some_iff.mp hown
    simp only [reduceCtorEq, false_and, if_false, false_iff]
    exact fun hmem => ho (h.owner_unique hmem hs)
  | none =>
    cases hlow : (q.vacant T).argmin BitVec.toNat with
    | some s =>
      obtain rfl : s = t := by simpa [hown, hlow] using ht
      have hs := List.argmin_mem hlow
      simp only [List.ne_nil_of_mem hs, and_false, if_false, reduceCtorEq, false_iff]
      exact (mem_vacant.mp hs).2 o'
    | none =>
      have hfull := List.argmin_eq_none.mp hlow
      simp only [hown, hlow, Option.none_or, Option.map_eq_some_iff] at ht
      obtain ⟨⟨v, s⟩, hhead, rfl⟩ := ht
      have hv : (v, s) ∈ q := List.mem_of_head? hhead
      simp only [hfull, and_self, if_true, hhead, Option.map_some, Option.some.injEq]
      exact ⟨fun heq => heq ▸ hv, fun hmem => h.owner_unique hv hmem⟩

theorem serve (h : q.Single) (T : List Asid) (o : OwnerId) : (q.serve T o).Single := by
  unfold Line.serve
  split
  · next t ht =>
    constructor
    · simp only [List.map_append, List.map_cons, List.map_nil, List.nodup_append]
      refine ⟨(h.without t).owners, by simp, fun o' ho' => ?_⟩
      obtain ⟨⟨o', t'⟩, hmem, rfl⟩ := List.mem_map.mp ho'
      simp only [List.mem_singleton, forall_eq]
      rintro rfl
      exact h.not_mem_without ht hmem
    · simp only [List.map_append, List.map_cons, List.map_nil, List.nodup_append]
      refine ⟨(h.without t).tags, by simp, fun t' ht' => ?_⟩
      obtain ⟨⟨o', t'⟩, hmem, rfl⟩ := List.mem_map.mp ht'
      simpa using (mem_without.mp hmem).2
  · exact h

theorem forgo (h : q.Single) (T : List Asid) (o : OwnerId) : (q.forgo T o).Single := by
  unfold Line.forgo
  split
  · exact h.without _
  · exact h

end Single

theorem mem_serve (ht : q.turn T o = some t) :
    (o', t') ∈ q.serve T o ↔ ((o', t') ∈ q ∧ t' ≠ t) ∨ (o' = o ∧ t' = t) := by
  simp [serve, ht, mem_without]

theorem mem_forgo (ht : q.turn T o = some t) :
    (o', t') ∈ q.forgo T o ↔ (o', t') ∈ q ∧ t' ≠ t := by
  simp [forgo, ht, mem_without]

theorem eq_nil_of_turn (ht : q.turn T o = none) : q = [] := by
  simp only [turn, Option.or_eq_none_iff, Option.map_eq_none_iff, List.head?_eq_none_iff] at ht
  exact ht.2.2

/-- Whoever is not served keeps its tag, unless it is the loser. -/
theorem tag?_serve (h : q.Single) (ho : o' ≠ o) :
    (q.serve T o).tag? o' = if q.loser T o = some o' then none else q.tag? o' := by
  cases ht : q.turn T o with
  | none =>
    obtain rfl := eq_nil_of_turn ht
    simp [serve, ht, loser]
  | some t =>
    ext t'
    rw [(h.serve T o).tag?_eq_some_iff, mem_serve ht]
    split
    · next hlose =>
      rw [h.loser_eq_some_iff ht ho] at hlose
      simp only [ho, false_and, or_false, reduceCtorEq, iff_false, not_and, not_not]
      exact fun hmem => h.tag_unique hmem hlose
    · next hkeep =>
      rw [h.loser_eq_some_iff ht ho] at hkeep
      simp only [ho, false_and, or_false, h.tag?_eq_some_iff, and_iff_left_iff_imp]
      rintro hmem rfl
      exact hkeep hmem

theorem tag?_forgo (h : q.Single) (ho : o' ≠ o) :
    (q.forgo T o).tag? o' = if q.loser T o = some o' then none else q.tag? o' := by
  rw [← tag?_serve h ho]
  cases ht : q.turn T o with
  | none => simp [serve, forgo, ht]
  | some t =>
    ext t'
    simp [(h.forgo T o).tag?_eq_some_iff, (h.serve T o).tag?_eq_some_iff, mem_forgo ht,
      mem_serve ht, ho]

theorem tag?_leave (h : q.Single) (ho : o' ≠ o) : (q.leave o).tag? o' = q.tag? o' := by
  ext t'
  simp [(h.leave o).tag?_eq_some_iff, h.tag?_eq_some_iff, mem_leave, ho]

theorem leave_eq_self (h : q.tag? o = none) : q.leave o = q := by
  refine List.filter_eq_self.mpr fun b hb => decide_eq_true ?_
  rintro rfl
  exact tag?_eq_none_iff.mp h b.2 hb

theorem leave_sublist : (q.leave o).Sublist q :=
  List.filter_sublist

theorem forgo_sublist : (q.forgo T o).Sublist q := by
  unfold forgo
  split
  · exact List.filter_sublist
  · exact List.Sublist.refl q

/-- If the line is in the order of earlier turns, it is so after the next turn. -/
theorem serve_sublist {L : List OwnerId} (h : q.Single)
    (hL : (q.map Prod.fst).Sublist L.dedup) :
    ((q.serve T o).map Prod.fst).Sublist (L ++ [o]).dedup := by
  cases ht : q.turn T o with
  | none =>
    obtain rfl := eq_nil_of_turn ht
    simp [serve, ht]
  | some t =>
    have hothers : ∀ o' ∈ (q.without t).map Prod.fst, decide (o' ≠ o) = true := by
      intro o' ho'
      obtain ⟨⟨o', t'⟩, hmem, rfl⟩ := List.mem_map.mp ho'
      simp only [ne_eq, decide_eq_true_eq]
      rintro rfl
      exact h.not_mem_without ht hmem
    have hwithout : ((q.without t).map Prod.fst).Sublist L.dedup :=
      (List.filter_sublist.map Prod.fst).trans hL
    have hsub := hwithout.filter fun o' => decide (o' ≠ o)
    rw [List.filter_eq_self.mpr hothers] at hsub
    simp only [serve, ht, List.map_append, List.map_cons, List.map_nil, dedup_concat]
    exact hsub.append_right [o]

end Line

namespace Tagging.Deed

variable {T : List Asid} {q : Line} {o : OwnerId} {d : Deed} {l : List Deed}

theorem tag?_advance (h : q.Single) (hd : d.owner? ≠ some o) :
    (d.advance T q).tag? o = if d.loser T q = some o then none else q.tag? o := by
  cases d with
  | assigned o' a => exact Line.tag?_serve h fun ho => hd (congrArg some ho.symm)
  | aborted o' => exact Line.tag?_forgo h fun ho => hd (congrArg some ho.symm)
  | released o' t => exact Line.tag?_leave h fun ho => hd (congrArg some ho.symm)
  | dropped o' => exact Line.tag?_leave h fun ho => hd (congrArg some ho.symm)
  | created => rfl
  | lookedUp o' t => rfl
  | rigged failing => rfl

/-- The owners in the line stand in the order in which they were served last. -/
theorem advance_sublist (h : q.Single)
    (hq : (q.map Prod.fst).Sublist (l.filterMap served?).reverse.dedup) :
    ((d.advance T q).map Prod.fst).Sublist ((d :: l).filterMap served?).reverse.dedup := by
  cases d with
  | assigned o a => simpa [served?, advance] using Line.serve_sublist h hq
  | aborted o => exact (Line.forgo_sublist.map Prod.fst).trans hq
  | released o t => exact (Line.leave_sublist.map Prod.fst).trans hq
  | dropped o => exact (Line.leave_sublist.map Prod.fst).trans hq
  | created => exact hq
  | lookedUp o t => exact hq
  | rigged failing => exact hq

end Tagging.Deed

end Sandbox
