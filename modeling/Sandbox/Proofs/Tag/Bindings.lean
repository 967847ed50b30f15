import Mathlib.Data.List.Perm.Basic
import Sandbox.Proofs.Tag.Reuse

/-! # Bindings of tags

At every moment of a history, whether flushes return or not, each tag is bound to at most one
live owner and each live owner to at most one tag, and its slot says which. The pool counts
the owners that hold a tag, and no tag comes from outside its range.
-/

namespace Sandbox

namespace Owners

variable {w : Owners}

theorem mem_toList {o : OwnerId} {t : Asid} : (o, t) ∈ w.toList ↔ w.tag? o = some t :=
  Std.ExtTreeMap.mem_toList_iff_getElem?_eq_some

theorem nodup_toList (w : Owners) : (w.toList.map Prod.fst).Nodup := by
  have hkeys := Std.ExtTreeMap.distinct_keys_toList (t := w.slots)
  rw [List.Nodup, List.pairwise_map]
  exact hkeys.imp fun hne heq => hne (OwnerId.compare_eq_iff.mpr heq)

end Owners

namespace TagPool

variable {p : TagPool} {w : Owners} {T : List Asid} {t t' : Asid} {o o' : OwnerId}

def Lends (p : TagPool) (w : Owners) (t : Asid) (o : OwnerId) : Prop :=
  ∃ r ∈ p.records, r.tag = t ∧ r.liveOwner w = some o

theorem owner_unique (h : Agreement T p.records w) (ho : p.Lends w t o) (ho' : p.Lends w t o') :
    o = o' := by
  obtain ⟨r, hr, rfl, hro⟩ := ho
  obtain ⟨r', hr', ht, hro'⟩ := ho'
  obtain ⟨i, hi⟩ := List.getElem?_of_mem hr
  obtain ⟨j, hj⟩ := List.getElem?_of_mem hr'
  obtain rfl := h.record_eq hi hj ht.symm
  exact Option.some.inj (hro.symm.trans hro')

theorem tag_unique (h : Agreement T p.records w) (ho : p.Lends w t o) (ho' : p.Lends w t' o) :
    t = t' := by
  obtain ⟨r, hr, rfl, hro⟩ := ho
  obtain ⟨r', hr', rfl, hro'⟩ := ho'
  obtain ⟨i, hi⟩ := List.getElem?_of_mem hr
  obtain ⟨j, hj⟩ := List.getElem?_of_mem hr'
  rw [h.record_unique hi hj hro hro']

/-- What an owner looks up is what it holds. -/
theorem lookup_eq_some_iff (h : Agreement T p.records w) :
    p.lookup w o = some t ↔ p.Lends w t o := by
  constructor
  · intro hlook
    obtain ⟨i, r, hi, hro, ht⟩ := lookup_eq_some hlook
    exact ⟨r, List.mem_of_getElem? hi, ht, hro⟩
  · rintro ⟨r, hr, rfl, hro⟩
    obtain ⟨t, hlook⟩ := exists_lookup hr hro
    obtain ⟨i, r', hi, hro', rfl⟩ := lookup_eq_some hlook
    rw [hlook, tag_unique h ⟨r, hr, rfl, hro⟩ ⟨r', List.mem_of_getElem? hi, rfl, hro'⟩]

theorem nodup_owners (h : Agreement T p.records w) :
    (p.records.filterMap (·.liveOwner w)).Nodup := by
  have hrecords : p.records.Nodup := .of_map TagRecord.tag (h.tags ▸ h.nodup)
  rw [List.Nodup, List.pairwise_filterMap]
  refine hrecords.pairwise_of_forall_ne fun r hr r' hr' hne o ho o' ho' heq => hne ?_
  obtain rfl := heq
  obtain ⟨i, hi⟩ := List.getElem?_of_mem hr
  obtain ⟨j, hj⟩ := List.getElem?_of_mem hr'
  exact h.record_unique hi hj ho ho'

/-- The pool counts the live owners that hold a tag. -/
theorem bound_eq (h : Agreement T p.records w) :
    p.bound w = w.toList.countP fun o => (p.lookup w o.1).isSome := by
  have hheld : ((w.toList.filter fun o => (p.lookup w o.1).isSome).map Prod.fst).Nodup :=
    w.nodup_toList.sublist (List.filter_sublist.map Prod.fst)
  have hperm : (p.records.filterMap (·.liveOwner w)).Perm
      ((w.toList.filter fun o => (p.lookup w o.1).isSome).map Prod.fst) := by
    rw [List.perm_ext_iff_of_nodup (nodup_owners h) hheld]
    intro o
    simp only [List.mem_filterMap, List.mem_map, List.mem_filter, Prod.exists, exists_and_right,
      exists_eq_right, Option.isSome_iff_exists, lookup_eq_some_iff h, Owners.mem_toList]
    constructor
    · rintro ⟨r, hr, ho⟩
      have hlive := (TagRecord.liveOwner_eq_some_iff.mp ho).2
      exact ⟨Owners.isLive_iff.mp hlive, r.tag, r, hr, rfl, ho⟩
    · rintro ⟨-, t, r, hr, -, ho⟩
      exact ⟨r, hr, ho⟩
  have hlength := hperm.length_eq
  rwa [List.length_filterMap_eq_countP, List.length_map, ← List.countP_eq_length_filter] at hlength

end TagPool

namespace Tagging

variable {p : TagPool} {T : List Asid} {x y : Tagging} {l : List Deed} {d : Deed} {t : Asid}
  {start size limit : Asid}

/-! ## Tags that were handed out -/

theorem Assigns.mem_tags {o : OwnerId} {a : Assignment} (hx : Assigns x o (.ok a) y)
    (h : Sound T x) : a.tag ∈ T := by
  cases hx with
  | held hi => exact h.agreement.mem_tags hi
  | given hi => exact h.agreement.mem_tags hi

theorem Step.mem_tags (hstep : Step x d y) (h : Sound T x) (hd : d.Binds t) : t ∈ T := by
  cases hstep with
  | assign ho ha =>
    have hassign := h.assigns ho
    rw [ha] at hassign
    rw [← (hd : _ = t)]
    exact hassign.mem_tags h
  | create => exact hd.elim
  | abort => exact hd.elim
  | release => exact hd.elim
  | lookup => exact hd.elim
  | drop => exact hd.elim
  | rig => exact hd.elim

theorem Run.mem_tags (hp : TagPool.create start size limit = .ok p) (h : Run p l x) :
    ∀ d ∈ l, ∀ t, d.Binds t → t ∈ TagPool.tags start size := by
  induction h with
  | start => exact nofun
  | step h hstep ih =>
    exact List.forall_mem_cons.mpr ⟨fun t => hstep.mem_tags (h.sound hp), ih⟩

/-! ## Bindings after any history -/

/-- How the tags of a pool of `size` tags from `start` on are bound after the deeds `l`. -/
structure Bound (start size : Asid) (l : List Deed) (x : Tagging) : Prop where
  owner_unique : ∀ t o o', x.pool.Lends x.owners t o → x.pool.Lends x.owners t o' → o = o'
  tag_unique : ∀ t t' o, x.pool.Lends x.owners t o → x.pool.Lends x.owners t' o → t = t'
  lookup_iff : ∀ o t, x.pool.lookup x.owners o = some t ↔ x.pool.Lends x.owners t o
  slot : ∀ o, x.owners.isLive o = true →
    x.owners.tag? o = some ((x.pool.lookup x.owners o).getD 0)
  /-- Every tag handed out so far lies in the range of the pool. -/
  handed_out : ∀ d ∈ l, ∀ t, d.Binds t →
    t ≠ 0 ∧ start.toNat ≤ t.toNat ∧ t.toNat ≤ start.toNat + size.toNat - 1
  count : x.pool.bound x.owners =
    x.owners.toList.countP fun o => (x.pool.lookup x.owners o.1).isSome
  count_le : x.pool.bound x.owners ≤ x.pool.capacity
  capacity : x.pool.capacity = size.toNat

theorem Sound.tag?_eq (h : Sound T x) {o : OwnerId} (ho : x.owners.isLive o = true) :
    x.owners.tag? o = some ((x.pool.lookup x.owners o).getD 0) := by
  obtain ⟨t, ht⟩ := Owners.isLive_iff.mp ho
  cases hlook : x.pool.lookup x.owners o with
  | some t' => exact (h.lookup_eq_some_iff.mp hlook).1
  | none =>
    by_cases ht0 : t = 0
    · rw [ht, ht0]
      rfl
    · rw [h.lookup_eq_some_iff.mpr ⟨ht, ht0⟩] at hlook
      cases hlook

/-- After any history, flushes that failed included, tags and live owners are bound one to one,
as records and slots both say, and only tags within the limit were handed out. -/
theorem Run.bound_one_to_one (hp : TagPool.create start size limit = .ok p) (h : Run p l x) :
    Bound start size l x ∧ start.toNat + size.toNat - 1 ≤ limit.toNat := by
  obtain ⟨-, hstart, hle, -⟩ := TagPool.create_eq_ok hp
  have hsound := h.sound hp
  have hagree := hsound.agreement
  refine ⟨⟨fun _ _ _ => TagPool.owner_unique hagree, fun _ _ _ => TagPool.tag_unique hagree,
    fun _ _ => TagPool.lookup_eq_some_iff hagree, fun _ => hsound.tag?_eq, fun d hd t ht => ?_,
    TagPool.bound_eq hagree, List.countP_le_length, ?_⟩, by omega⟩
  · have hmem := h.mem_tags hp d hd t ht
    obtain ⟨hlow, hhigh⟩ := (TagPool.mem_tags hle).mp hmem
    exact ⟨fun h0 => hagree.nonzero (h0 ▸ hmem), hlow, by omega⟩
  · have hlength := congrArg List.length hagree.tags
    rwa [List.length_map, TagPool.tags, List.length_map, List.length_range] at hlength

/-- The flush that an eviction needs fails: the evicted owner has lost its tag, and the new
owner has not got it. -/
theorem bound_one_to_one_aborted : ∃ x, Run ⟨[{ tag := 2 }], 0⟩
      [.aborted ⟨2⟩, .rigged (fun _ => [2]), .assigned ⟨1⟩ ⟨2, 0, false, false⟩, .created,
        .created] x ∧
    x.owners.tag? ⟨1⟩ = some 0 ∧ x.owners.tag? ⟨2⟩ = some 0 ∧ x.pool.bound x.owners ≤ 1 := by
  have hpool : TagPool.create 2 1 100 = .ok ⟨[{ tag := 2 }], 0⟩ := by decide
  have habort : (assign ⟨2⟩).outcome { lentOut with trace.failing := fun _ => [2] } =
      .error (.abort (.flushFailed 2)) := by decide +kernel
  have hrun := (run_lentOut.step (.rig fun _ => [2])).step (.abort (by decide +kernel) habort)
  have hbound := (hrun.bound_one_to_one hpool).1
  refine ⟨_, hrun, ?_, ?_, hbound.count_le.trans_eq hbound.capacity⟩
  · rw [hbound.slot ⟨1⟩ (by decide +kernel)]
    decide +kernel
  · rw [hbound.slot ⟨2⟩ (by decide +kernel)]
    decide +kernel

end Tagging

end Sandbox
