import Sandbox.Proofs.Tag.Owners
import Sandbox.Tag.Assign

/-! # Records and slots

A pool keeps a record of each tag, and each owner keeps its tag in a slot. The two agree: a
live owner in a record has the record's tag in its slot, and every tag in a slot comes from
such a record.
-/

namespace Sandbox

namespace TagRecord

variable {r : TagRecord} {w : Owners} {o : OwnerId}

theorem liveOwner_eq_some_iff : r.liveOwner w = some o ↔ r.owner = some o ∧ w.isLive o = true := by
  rw [liveOwner, Option.filter_eq_some_iff]

theorem liveOwner_eq_none_iff :
    r.liveOwner w = none ↔ ∀ o, r.owner = some o → w.isLive o = false := by
  simp only [liveOwner, Option.filter_eq_none_iff, Bool.not_eq_true]

/-- Clearing a record whose owner is gone writes no slot. -/
theorem vacate_of_liveOwner (h : r.liveOwner w = none) : w.vacate r.owner = w := by
  cases ho : r.owner with
  | none => rfl
  | some o => exact Owners.bind_of_not_isLive (liveOwner_eq_none_iff.mp h o ho)

end TagRecord

theorem getElem?_set_of_some {α : Type} {l : List α} {i j : Nat} {x y : α}
    (hi : l[i]? = some x) : (l.set i y)[j]? = if i = j then some y else l[j]? := by
  rw [List.getElem?_set']
  split
  · next h =>
    subst h
    rw [hi]
    rfl
  · rfl

theorem set_cases {α : Type} {l : List α} {i j : Nat} {x y z : α} (hi : l[i]? = some x)
    (hj : (l.set i y)[j]? = some z) : (i = j ∧ y = z) ∨ (i ≠ j ∧ l[j]? = some z) := by
  rw [getElem?_set_of_some hi] at hj
  split at hj
  · next h => exact Or.inl ⟨h, Option.some.inj hj⟩
  · next h => exact Or.inr ⟨h, hj⟩

theorem map_set_eq {α β : Type} {f : α → β} {l : List α} {i : Nat} {x y : α} (hi : l[i]? = some x)
    (h : f y = f x) : (l.set i y).map f = l.map f := by
  obtain ⟨hlt, rfl⟩ := List.getElem?_eq_some_iff.mp hi
  have hlt' : i < (l.map f).length := by rwa [List.length_map]
  rw [List.map_set, h, ← List.getElem_map f (h := hlt'), List.set_getElem_self]

theorem index_eq_of_nodup_map {α β : Type} {f : α → β} {l : List α} {i j : Nat} {x y : α}
    (h : (l.map f).Nodup) (hi : l[i]? = some x) (hj : l[j]? = some y) (heq : f x = f y) :
    i = j := by
  have hlt : i < (l.map f).length := by
    rw [List.length_map]
    exact (List.getElem?_eq_some_iff.mp hi).1
  refine (List.getElem?_inj hlt h).mp ?_
  rw [List.getElem?_map, List.getElem?_map, hi, hj, Option.map_some, Option.map_some, heq]

/-- Records `l` of the tags `T` agree with the slots `w`. -/
structure Agreement (T : List Asid) (l : List TagRecord) (w : Owners) : Prop where
  tags : l.map TagRecord.tag = T
  nodup : T.Nodup
  nonzero : (0 : Asid) ∉ T
  bound : ∀ {i : Nat} {r : TagRecord} {o : OwnerId} {t : Asid},
    l[i]? = some r → r.owner = some o → w.tag? o = some t → t = r.tag
  held : ∀ {o : OwnerId} {t : Asid}, w.tag? o = some t → t ≠ 0 →
    ∃ (i : Nat) (r : TagRecord), l[i]? = some r ∧ r.owner = some o ∧ r.tag = t
  live_lt : ∀ {o : OwnerId} {t : Asid}, w.tag? o = some t → o.number < w.next.number
  owner_lt : ∀ {i : Nat} {r : TagRecord} {o : OwnerId},
    l[i]? = some r → r.owner = some o → o.number < w.next.number

namespace Agreement

variable {T : List Asid} {l : List TagRecord} {w : Owners} {i j : Nat} {r r' : TagRecord}
  {o : OwnerId} {t : Asid}

theorem mem_tags (h : Agreement T l w) (hi : l[i]? = some r) : r.tag ∈ T := by
  rw [← h.tags]
  exact List.mem_map_of_mem (List.mem_of_getElem? hi)

theorem exists_record (h : Agreement T l w) (ht : t ∈ T) :
    ∃ (i : Nat) (r : TagRecord), l[i]? = some r ∧ r.tag = t := by
  rw [← h.tags] at ht
  obtain ⟨r, hr, rfl⟩ := List.mem_map.mp ht
  obtain ⟨i, hi⟩ := List.getElem?_of_mem hr
  exact ⟨i, r, hi, rfl⟩

theorem tag_ne_zero (h : Agreement T l w) (hi : l[i]? = some r) : r.tag ≠ 0 :=
  fun h0 => h.nonzero (h0 ▸ h.mem_tags hi)

theorem index_eq (h : Agreement T l w) (hi : l[i]? = some r) (hj : l[j]? = some r')
    (ht : r.tag = r'.tag) : i = j :=
  index_eq_of_nodup_map (h.tags ▸ h.nodup) hi hj ht

theorem record_eq (h : Agreement T l w) (hi : l[i]? = some r) (hj : l[j]? = some r')
    (ht : r.tag = r'.tag) : r = r' := by
  obtain rfl := h.index_eq hi hj ht
  exact Option.some.inj (hi.symm.trans hj)

/-- A live owner has one record. -/
theorem record_unique (h : Agreement T l w) (hi : l[i]? = some r) (hj : l[j]? = some r')
    (ho : r.liveOwner w = some o) (ho' : r'.liveOwner w = some o) : r = r' := by
  rw [TagRecord.liveOwner_eq_some_iff] at ho ho'
  obtain ⟨t, ht⟩ := Owners.isLive_iff.mp ho.2
  exact h.record_eq hi hj ((h.bound hi ho.1 ht).symm.trans (h.bound hj ho'.1 ht))

theorem holders_eq_nil (h : Agreement T l w) (hi : l[i]? = some r)
    (hr : r.liveOwner w = none) : w.holders r.tag = [] := by
  refine List.eq_nil_iff_forall_not_mem.mpr fun o ho => ?_
  rw [Owners.mem_holders] at ho
  obtain ⟨j, r', hj, ho', ht⟩ := h.held ho (h.tag_ne_zero hi)
  obtain rfl := h.record_eq hi hj ht.symm
  have hdead := TagRecord.liveOwner_eq_none_iff.mp hr o ho'
  rw [Owners.not_isLive_iff, ho] at hdead
  cases hdead

theorem find?_tag (h : Agreement T l w) (hi : l[i]? = some r) :
    (l.find? fun q => q.tag == r.tag) = some r := by
  have hsome : (l.find? fun q => q.tag == r.tag).isSome := by
    simpa using ⟨r, List.mem_of_getElem? hi, rfl⟩
  obtain ⟨q, hq⟩ := Option.isSome_iff_exists.mp hsome
  obtain ⟨j, hj⟩ := List.getElem?_of_mem (List.mem_of_find?_eq_some hq)
  have htag : q.tag = r.tag := by simpa using List.find?_some hq
  rw [hq, h.record_eq hi hj htag.symm]

theorem set_eq_map (h : Agreement T l w) (hi : l[i]? = some r) :
    l.set i r' = l.map fun q => if q.tag = r.tag then r' else q := by
  ext j : 1
  rw [getElem?_set_of_some hi, List.getElem?_map]
  split
  · next hij =>
    subst hij
    simp [hi]
  · next hij =>
    cases hj : l[j]? with
    | none => rfl
    | some q =>
      have hne : q.tag ≠ r.tag := fun ht => hij (h.index_eq hi hj ht.symm)
      simp [hne]

/-! ## Changes that keep the agreement -/

theorem tags_set (h : Agreement T l w) (hi : l[i]? = some r) (ht : r'.tag = r.tag) :
    (l.set i r').map TagRecord.tag = T :=
  (map_set_eq hi ht).trans h.tags

theorem agreement_set (h : Agreement T l w) (hi : l[i]? = some r) (ht : r'.tag = r.tag)
    (ho : r'.owner = r.owner) : Agreement T (l.set i r') w := by
  have hback {j : Nat} {q : TagRecord} (hj : (l.set i r')[j]? = some q) :
      ∃ q', l[j]? = some q' ∧ q.tag = q'.tag ∧ q.owner = q'.owner := by
    obtain ⟨rfl, rfl⟩ | ⟨-, hj⟩ := set_cases hi hj
    · exact ⟨r, hi, ht, ho⟩
    · exact ⟨q, hj, rfl, rfl⟩
  refine ⟨h.tags_set hi ht, h.nodup, h.nonzero, ?_, ?_, h.live_lt, ?_⟩
  · intro j q o t hj hq hw
    obtain ⟨q', hj', htag, howner⟩ := hback hj
    rw [htag]
    exact h.bound hj' (howner ▸ hq) hw
  · intro o t hw ht0
    obtain ⟨j, q, hj, hq, rfl⟩ := h.held hw ht0
    by_cases hij : i = j
    · subst hij
      obtain rfl := Option.some.inj (hi.symm.trans hj)
      exact ⟨i, r', by rw [getElem?_set_of_some hi, if_pos rfl], ho.trans hq, ht⟩
    · exact ⟨j, q, by rw [getElem?_set_of_some hi, if_neg hij, hj], hq, rfl⟩
  · intro j q o hj hq
    obtain ⟨q', hj', -, howner⟩ := hback hj
    exact h.owner_lt hj' (howner ▸ hq)

theorem agreement_vacate (h : Agreement T l w) (hi : l[i]? = some r) :
    Agreement T (l.set i { r with owner := none }) (w.vacate r.owner) := by
  have hback {j : Nat} {q : TagRecord} {o : OwnerId} (hq : q.owner = some o)
      (hj : (l.set i { r with owner := none })[j]? = some q) : l[j]? = some q ∧ i ≠ j := by
    obtain ⟨-, rfl⟩ | ⟨hij, hj⟩ := set_cases hi hj
    · cases hq
    · exact ⟨hj, hij⟩
  refine ⟨h.tags_set hi rfl, h.nodup, h.nonzero, ?_, ?_, ?_, ?_⟩
  · intro j q o t hj hq hw
    obtain ⟨hj', hij⟩ := hback hq hj
    rw [Owners.tag?_vacate] at hw
    split at hw
    · next ho =>
      -- An owner of two records is not live, and so has no slot.
      obtain ⟨t', ht', -⟩ := Option.map_eq_some_iff.mp hw
      have heq : q.tag = r.tag := (h.bound hj' hq ht').symm.trans (h.bound hi ho ht')
      exact absurd (h.index_eq hi hj' heq.symm) hij
    · exact h.bound hj' hq hw
  · intro o t hw ht0
    rw [Owners.tag?_vacate] at hw
    split at hw
    · obtain ⟨t', -, ht'⟩ := Option.map_eq_some_iff.mp hw
      exact absurd ht'.symm ht0
    · next hne =>
      obtain ⟨j, q, hj, hq, ht⟩ := h.held hw ht0
      refine ⟨j, q, ?_, hq, ht⟩
      rw [getElem?_set_of_some hi, if_neg, hj]
      rintro rfl
      obtain rfl := Option.some.inj (hi.symm.trans hj)
      exact hne hq
  · intro o t hw
    rw [Owners.next_vacate]
    rw [Owners.tag?_vacate] at hw
    split at hw
    · obtain ⟨t', ht', -⟩ := Option.map_eq_some_iff.mp hw
      exact h.live_lt ht'
    · exact h.live_lt hw
  · intro j q o hj hq
    rw [Owners.next_vacate]
    exact h.owner_lt (hback hq hj).1 hq

theorem agreement_bind (h : Agreement T l w) (hi : l[i]? = some r) (hr : r.owner = none)
    (ho : w.tag? o = some 0) (r' : TagRecord) (ht : r'.tag = r.tag) (hr' : r'.owner = some o) :
    Agreement T (l.set i r') (w.bind o r.tag) := by
  have hother {j : Nat} {q : TagRecord} (hj : l[j]? = some q) : q.owner ≠ some o :=
    fun hq => h.tag_ne_zero hj (h.bound hj hq ho).symm
  refine ⟨h.tags_set hi ht, h.nodup, h.nonzero, ?_, ?_, ?_, ?_⟩
  · intro j q o' t hj hq hw
    rw [Owners.tag?_bind] at hw
    obtain ⟨-, rfl⟩ | ⟨-, hj⟩ := set_cases hi hj
    · obtain rfl := Option.some.inj (hr'.symm.trans hq)
      rw [if_pos rfl, ho, Option.map_some] at hw
      exact (Option.some.inj hw).symm.trans ht.symm
    · rw [if_neg] at hw
      · exact h.bound hj hq hw
      · rintro rfl
        exact hother hj hq
  · intro o' t hw ht0
    rw [Owners.tag?_bind] at hw
    split at hw
    · next heq =>
      subst heq
      rw [ho, Option.map_some] at hw
      refine ⟨i, r', by rw [getElem?_set_of_some hi, if_pos rfl], hr', ?_⟩
      exact ht.trans (Option.some.inj hw)
    · obtain ⟨j, q, hj, hq, htag⟩ := h.held hw ht0
      refine ⟨j, q, ?_, hq, htag⟩
      rw [getElem?_set_of_some hi, if_neg, hj]
      rintro rfl
      obtain rfl := Option.some.inj (hi.symm.trans hj)
      cases hr.symm.trans hq
  · intro o' t hw
    rw [Owners.next_bind]
    rw [Owners.tag?_bind] at hw
    split at hw
    · obtain ⟨t', ht', -⟩ := Option.map_eq_some_iff.mp hw
      exact h.live_lt ht'
    · exact h.live_lt hw
  · intro j q o' hj hq
    rw [Owners.next_bind]
    obtain ⟨-, rfl⟩ | ⟨-, hj⟩ := set_cases hi hj
    · obtain rfl := Option.some.inj (hr'.symm.trans hq)
      exact h.live_lt ho
    · exact h.owner_lt hj hq

theorem agreement_create (h : Agreement T l w) : Agreement T l w.create := by
  have hold {o : OwnerId} (ho : o.number < w.next.number) : w.next ≠ o := by
    rintro rfl
    exact Nat.lt_irrefl _ ho
  refine ⟨h.tags, h.nodup, h.nonzero, ?_, ?_, ?_, ?_⟩
  · intro i r o t hi hr hw
    rw [Owners.tag?_create, if_neg (hold (h.owner_lt hi hr))] at hw
    exact h.bound hi hr hw
  · intro o t hw ht0
    rw [Owners.tag?_create] at hw
    split at hw
    · exact absurd (Option.some.inj hw).symm ht0
    · exact h.held hw ht0
  · intro o t hw
    rw [Owners.tag?_create] at hw
    split at hw
    · next heq => exact heq ▸ Nat.lt_succ_self _
    · exact Nat.lt_succ_of_lt (h.live_lt hw)
  · exact fun hi hr => Nat.lt_succ_of_lt (h.owner_lt hi hr)

theorem agreement_drop (h : Agreement T l w) (o : OwnerId) : Agreement T l (w.drop o) := by
  have hback {o' : OwnerId} {t : Asid} (hw : (w.drop o).tag? o' = some t) :
      w.tag? o' = some t := by
    rw [Owners.tag?_drop] at hw
    split at hw
    · cases hw
    · exact hw
  exact ⟨h.tags, h.nodup, h.nonzero, fun hi hr hw => h.bound hi hr (hback hw),
    fun hw => h.held (hback hw), fun hw => h.live_lt (hback hw), h.owner_lt⟩

end Agreement

end Sandbox
