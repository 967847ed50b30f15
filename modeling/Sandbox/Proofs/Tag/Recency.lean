import Sandbox.Proofs.Tag.Line

/-! # Tags are handed out in turn

The records of a pool keep no order. All they have are the times of the last assignments, which
stay behind when a tag is given up. The owners that hold a tag still form a line, ordered by these
times, and each deed changes the pool just as it changes the line.
-/

namespace Sandbox

namespace TagPool

variable {p p' : TagPool} {w w' : Owners} {T : List Asid} {i : Nat} {r r' : TagRecord}
  {o : OwnerId} {t : Asid} {start size limit : Asid}

def stamp (p : TagPool) (t : Asid) : Nat :=
  ((p.records.find? fun r => r.tag == t).map TagRecord.lastAssigned).getD 0

theorem stamp_eq (h : Agreement T p.records w) (hi : p.records[i]? = some r) :
    p.stamp r.tag = r.lastAssigned := by
  rw [stamp, h.find?_tag hi, Option.map_some, Option.getD_some]

theorem stamp_set (h : Agreement T p.records w) (hi : p.records[i]? = some r)
    (hp : p'.records = p.records.set i r') (ht : r'.tag = r.tag) :
    p'.stamp t = if t = r.tag then r'.lastAssigned else p.stamp t := by
  have htag : ∀ q : TagRecord, (if q.tag = r.tag then r' else q).tag = q.tag := by
    intro q
    split
    · next hq => rw [ht, hq]
    · rfl
  simp only [stamp, hp, h.set_eq_map hi, List.find?_map, Function.comp_def, htag]
  split
  · next heq =>
    rw [heq, h.find?_tag hi]
    simp
  · next hne =>
    cases hq : p.records.find? fun q => q.tag == t with
    | none => rfl
    | some q =>
      have hq : q.tag = t := by simpa using List.find?_some hq
      simp [hq, hne]

theorem lends_congr (hlive : ∀ o, w'.isLive o = w.isLive o) : p.Lends w' t o ↔ p.Lends w t o := by
  simp only [Lends, TagRecord.liveOwner_eq_some_iff, hlive]

theorem lends_set (h : Agreement T p.records w) (hi : p.records[i]? = some r)
    (hp : p'.records = p.records.set i r') (ht : r'.tag = r.tag) :
    p'.Lends w' t o ↔ if t = r.tag then r'.liveOwner w' = some o else p.Lends w' t o := by
  have hr : r ∈ p.records := List.mem_of_getElem? hi
  simp only [Lends, hp, h.set_eq_map hi, List.mem_map, exists_exists_and_eq_and]
  split
  · next heq =>
    subst heq
    constructor
    · rintro ⟨q, -, hq, ho⟩
      have hqr : q.tag = r.tag := by
        by_contra hne
        simp [hne] at hq
      simpa [hqr] using ho
    · exact fun ho => ⟨r, hr, by simpa using ht, by simpa using ho⟩
  · next hne =>
    refine exists_congr fun q => and_congr_right fun _ => ?_
    split
    · next hq => simp [ht, hq, Ne.symm hne]
    · rfl

theorem tags_sorted (h : start.toNat + size.toNat ≤ limit.toNat + 1) :
    (tags start size).Pairwise fun t t' => t.toNat < t'.toNat := by
  rw [tags, List.pairwise_map]
  refine List.pairwise_lt_range.imp_of_mem fun {i j} hi hj hij => ?_
  rw [toNat_tag h (List.mem_range.mp hi), toNat_tag h (List.mem_range.mp hj)]
  omega

end TagPool

namespace Tagging

variable {T : List Asid} {q : Line} {x y : Tagging} {i : Nat} {r r' : TagRecord} {o : OwnerId}
  {t : Asid} {d : Deed}

/-- The owners that hold a tag stand in the line `q`, in the order of their last assignments. -/
structure Lined (q : Line) (x : Tagging) : Prop where
  mem_iff : ∀ {o : OwnerId} {t : Asid}, (o, t) ∈ q ↔ x.pool.Lends x.owners t o
  ordered : q.Pairwise fun b b' => x.pool.stamp b.2 < x.pool.stamp b'.2
  le_clock : ∀ {i : Nat} {r : TagRecord}, x.pool.records[i]? = some r →
    r.lastAssigned ≤ x.pool.clock

namespace Lined

theorem stamp_le (h : Lined q x) (hx : Sound T x) {b : OwnerId × Asid} (hb : b ∈ q) :
    x.pool.stamp b.2 ≤ x.pool.clock := by
  obtain ⟨r, hr, ht, -⟩ := h.mem_iff.mp hb
  obtain ⟨i, hi⟩ := List.getElem?_of_mem hr
  rw [← ht, TagPool.stamp_eq hx.agreement hi]
  exact h.le_clock hi

theorem single (h : Lined q x) (hx : Sound T x) : q.Single := by
  constructor
  · rw [List.Nodup, List.pairwise_map]
    refine h.ordered.imp_of_mem fun {b b'} hb hb' hlt heq => ?_
    obtain ⟨o, t⟩ := b
    obtain ⟨o', t'⟩ := b'
    obtain rfl : o = o' := heq
    obtain rfl := TagPool.tag_unique hx.agreement (h.mem_iff.mp hb) (h.mem_iff.mp hb')
    exact Nat.lt_irrefl _ hlt
  · rw [List.Nodup, List.pairwise_map]
    exact h.ordered.imp fun hlt heq => hlt.ne (congrArg x.pool.stamp heq)

theorem lookup_eq (h : Lined q x) (hx : Sound T x) (o : OwnerId) :
    x.pool.lookup x.owners o = q.tag? o := by
  ext t
  rw [TagPool.lookup_eq_some_iff hx.agreement, ← h.mem_iff, (h.single hx).tag?_eq_some_iff]

/-! ## Whose turn it is -/

theorem tag?_of_held (h : Lined q x) (hx : Sound T x) (hheld : x.pool.held? x.owners o = some i)
    (hi : x.pool.records[i]? = some r) : q.tag? o = some r.tag := by
  obtain ⟨r', hi', hr⟩ := TagPool.held?_eq_some hheld
  obtain rfl := Option.some.inj (hi.symm.trans hi')
  rw [(h.single hx).tag?_eq_some_iff, h.mem_iff]
  exact ⟨r, List.mem_of_getElem? hi, rfl, hr⟩

theorem tag?_of_unheld (h : Lined q x) (hheld : x.pool.held? x.owners o = none) :
    q.tag? o = none := by
  rw [Line.tag?_eq_none_iff]
  intro t ht
  obtain ⟨r, hr, -, ho⟩ := h.mem_iff.mp ht
  exact TagPool.held?_eq_none_iff.mp hheld r hr ho

theorem mem_vacant_iff (h : Lined q x) (hx : Sound T x) (hi : x.pool.records[i]? = some r) :
    r.tag ∈ q.vacant T ↔ r.liveOwner x.owners = none := by
  rw [Line.mem_vacant, and_iff_right (hx.agreement.mem_tags hi), Option.eq_none_iff_forall_ne_some]
  refine forall_congr' fun o => not_congr (h.mem_iff.trans ⟨?_, ?_⟩)
  · rintro ⟨r', hr', ht, ho⟩
    obtain ⟨j, hj⟩ := List.getElem?_of_mem hr'
    rwa [hx.agreement.record_eq hi hj ht.symm]
  · exact fun ho => ⟨r, List.mem_of_getElem? hi, rfl, ho⟩

/-- The first record without a live owner has the lowest vacant tag. -/
theorem argmin_of_free (h : Lined q x) (hx : Sound T x)
    (hT : T.Pairwise fun t t' => t.toNat < t'.toNat) (hfree : x.pool.free? x.owners = some i)
    (hi : x.pool.records[i]? = some r) : (q.vacant T).argmin BitVec.toNat = some r.tag := by
  obtain ⟨hlt, hnone, hfirst⟩ := List.findIdx?_eq_some_iff_getElem.mp hfree
  obtain ⟨_, heq⟩ := List.getElem?_eq_some_iff.mp hi
  rw [heq, beq_iff_eq] at hnone
  have hlow : ∀ t ∈ q.vacant T, r.tag.toNat ≤ t.toNat := by
    intro t ht
    obtain ⟨j, r', hj, rfl⟩ := hx.agreement.exists_record (Line.mem_vacant.mp ht).1
    have hvac := (h.mem_vacant_iff hx hj).mp ht
    obtain ⟨hjlt, rfl⟩ := List.getElem?_eq_some_iff.mp hj
    rcases Nat.lt_trichotomy j i with hji | rfl | hij
    · exact absurd (beq_iff_eq.mpr hvac) (hfirst j hji)
    · rw [heq]
    · rw [← hx.agreement.tags, List.pairwise_map] at hT
      rw [← heq]
      exact (List.pairwise_iff_getElem.mp hT i j hlt hjlt hij).le
  rw [List.argmin_eq_some_iff]
  refine ⟨(h.mem_vacant_iff hx hi).mpr hnone, hlow, fun t ht hle => ?_⟩
  rw [BitVec.eq_of_toNat_eq (Nat.le_antisymm hle (hlow t ht))]

/-- If all tags are held, the record that was assigned longest ago belongs to the owner at the
front. -/
theorem head_of_oldest (h : Lined q x) (hx : Sound T x) (hfree : x.pool.free? x.owners = none)
    (hi : x.pool.records[x.pool.oldest]? = some r) : q.head?.map Prod.snd = some r.tag := by
  have hold : ∀ r' ∈ x.pool.records, r.lastAssigned ≤ r'.lastAssigned := by
    obtain ⟨hlt, rfl⟩ := List.getElem?_eq_some_iff.mp hi
    have hall : (x.pool.records.all fun r' =>
        decide (x.pool.records[x.pool.oldest].lastAssigned ≤ r'.lastAssigned)) = true :=
      List.findIdx_getElem (w := hlt)
    simpa using hall
  obtain ⟨v, hv⟩ := Option.ne_none_iff_exists'.mp (TagPool.free?_eq_none_iff.mp hfree r
    (List.mem_of_getElem? hi))
  have hmem : (v, r.tag) ∈ q := h.mem_iff.mpr ⟨r, List.mem_of_getElem? hi, rfl, hv⟩
  have hordered := h.ordered
  cases q with
  | nil => cases hmem
  | cons b q =>
    rcases List.mem_cons.mp hmem with rfl | hmem
    · rfl
    · -- Whoever stands in front of the oldest one would be older still.
      have hlt := List.rel_of_pairwise_cons hordered hmem
      obtain ⟨r', hr', ht, -⟩ := h.mem_iff.mp (List.mem_cons_self : b ∈ b :: q)
      obtain ⟨j, hj⟩ := List.getElem?_of_mem hr'
      rw [← ht, TagPool.stamp_eq hx.agreement hi, TagPool.stamp_eq hx.agreement hj] at hlt
      exact absurd hlt (Nat.not_lt_of_le (hold r' hr'))

theorem turn_of_held (h : Lined q x) (hx : Sound T x) (hheld : x.pool.held? x.owners o = some i)
    (hi : x.pool.records[i]? = some r) : q.turn T o = some r.tag := by
  simp [Line.turn, h.tag?_of_held hx hheld hi]

theorem turn_of_unheld (h : Lined q x) (hx : Sound T x)
    (hT : T.Pairwise fun t t' => t.toNat < t'.toNat) (hheld : x.pool.held? x.owners o = none)
    (hi : x.pool.records[x.pool.choice x.owners]? = some r) : q.turn T o = some r.tag := by
  unfold TagPool.choice at hi
  cases hfree : x.pool.free? x.owners with
  | some i =>
    rw [hfree, Option.getD_some] at hi
    simp [Line.turn, h.tag?_of_unheld hheld, h.argmin_of_free hx hT hfree hi]
  | none =>
    rw [hfree, Option.getD_none] at hi
    have hvacant : q.vacant T = [] := by
      refine List.eq_nil_iff_forall_not_mem.mpr fun t ht => ?_
      obtain ⟨j, r, hj, rfl⟩ := hx.agreement.exists_record (Line.mem_vacant.mp ht).1
      exact TagPool.free?_eq_none_iff.mp hfree r (List.mem_of_getElem? hj)
        ((h.mem_vacant_iff hx hj).mp ht)
    simp [Line.turn, h.tag?_of_unheld hheld, hvacant, h.head_of_oldest hx hfree hi]

/-! ## Steps along the line -/

theorem vacated (h : Lined q x) (hx : Sound T x) (hi : x.pool.records[i]? = some r) :
    Lined (q.without r.tag) (x.vacated i r) := by
  have hrecords : (x.vacated i r).pool.records = x.pool.records.set i { r with owner := none } :=
    rfl
  have hlive (o : OwnerId) : (x.vacated i r).owners.isLive o = x.owners.isLive o :=
    Owners.isLive_vacate
  refine ⟨fun {o t} => ?_, ?_, fun {j s} hj => ?_⟩
  · rw [Line.mem_without, h.mem_iff, TagPool.lends_set hx.agreement hi hrecords rfl,
      TagPool.lends_congr hlive]
    split
    · next ht => simp [ht, TagRecord.liveOwner]
    · next ht => simp [ht]
  · refine (h.ordered.filter _).imp_of_mem fun {b b'} hb hb' hlt => ?_
    have hne {b : OwnerId × Asid} (hb : b ∈ q.without r.tag) : b.2 ≠ r.tag :=
      (Line.mem_without.mp hb).2
    rwa [TagPool.stamp_set hx.agreement hi hrecords rfl,
      TagPool.stamp_set hx.agreement hi hrecords rfl, if_neg (hne hb), if_neg (hne hb')]
  · obtain ⟨-, rfl⟩ | ⟨-, hj⟩ := set_cases hi hj
    · exact (h.le_clock hi : r.lastAssigned ≤ _)
    · exact h.le_clock hj

theorem moved (h : Lined q x) (hx : Sound T x) (hi : x.pool.records[i]? = some r)
    (hy : y.pool = ⟨x.pool.records.set i r', x.pool.clock + 1⟩) (ht : r'.tag = r.tag)
    (hr' : r'.owner = some o) (hnow : r'.lastAssigned = x.pool.clock + 1)
    (ho : x.owners.isLive o = true) (hlive : ∀ o, y.owners.isLive o = x.owners.isLive o) :
    Lined (q.without r.tag ++ [(o, r.tag)]) y := by
  have howner : r'.liveOwner y.owners = some o :=
    TagRecord.liveOwner_eq_some_iff.mpr ⟨hr', (hlive o).trans ho⟩
  have hrecords : y.pool.records = x.pool.records.set i r' := by rw [hy]
  have hclock : y.pool.clock = x.pool.clock + 1 := by rw [hy]
  refine ⟨fun {o' t} => ?_, ?_, fun {j s} hj => ?_⟩
  · rw [List.mem_append, Line.mem_without, h.mem_iff, TagPool.lends_set hx.agreement hi hrecords ht,
      TagPool.lends_congr hlive]
    split
    · next heq => simp [heq, howner, eq_comm]
    · next hne => simp [hne]
  · have hstamp {t : Asid} := TagPool.stamp_set (t := t) hx.agreement hi hrecords ht
    have hother {b : OwnerId × Asid} (hb : b ∈ q.without r.tag) :
        y.pool.stamp b.2 = x.pool.stamp b.2 ∧ x.pool.stamp b.2 ≤ x.pool.clock :=
      ⟨by rw [hstamp, if_neg (Line.mem_without.mp hb).2], h.stamp_le hx (List.mem_of_mem_filter hb)⟩
    rw [List.pairwise_append]
    refine ⟨(h.ordered.filter _).imp_of_mem fun {b b'} hb hb' hlt => ?_, by simp, ?_⟩
    · rwa [(hother hb).1, (hother hb').1]
    · intro b hb b' hb'
      obtain rfl := List.mem_singleton.mp hb'
      rw [hstamp (t := r.tag), if_pos rfl, hnow, (hother hb).1]
      exact Nat.lt_succ_of_le (hother hb).2
  · rw [hrecords] at hj
    rw [hclock]
    obtain ⟨-, rfl⟩ | ⟨-, hj⟩ := set_cases hi hj
    · exact hnow.le
    · exact Nat.le_succ_of_le (h.le_clock hj)

theorem without_eq_leave (h : Lined q x) (hx : Sound T x)
    (hheld : x.pool.held? x.owners o = some i) (hi : x.pool.records[i]? = some r) :
    q.without r.tag = q.leave o := by
  have hmem := (h.single hx).tag?_eq_some_iff.mp (h.tag?_of_held hx hheld hi)
  refine List.filter_congr fun b hb => decide_eq_decide.mpr (not_congr ⟨?_, ?_⟩)
  · rintro ht
    exact (h.single hx).owner_unique (ht ▸ hb : (b.1, r.tag) ∈ q) hmem
  · rintro ho
    exact (h.single hx).tag_unique (ho ▸ hb : (o, b.2) ∈ q) hmem

theorem create (h : Lined q x) (hx : Sound T x) :
    Lined q { x with owners := x.owners.create } := by
  refine ⟨fun {o t} => h.mem_iff.trans ?_, h.ordered, h.le_clock⟩
  simp only [TagPool.Lends, TagRecord.liveOwner_eq_some_iff]
  refine exists_congr fun r => and_congr_right fun hr => and_congr_right fun _ =>
    and_congr_right fun ho => ?_
  obtain ⟨i, hi⟩ := List.getElem?_of_mem hr
  have hlt := hx.agreement.owner_lt hi ho
  have hne : x.owners.next ≠ o := by
    rintro rfl
    exact Nat.lt_irrefl _ hlt
  rw [Owners.isLive_eq, Owners.isLive_eq, Owners.tag?_create, if_neg hne]

theorem drop (h : Lined q x) (o : OwnerId) :
    Lined (q.leave o) { x with owners := x.owners.drop o } := by
  refine ⟨fun {o' t} => ?_, h.ordered.filter _, h.le_clock⟩
  rw [Line.mem_leave, h.mem_iff]
  simp only [TagPool.Lends, TagRecord.liveOwner_eq_some_iff, Owners.isLive_eq, Owners.tag?_drop]
  by_cases ho : o = o'
  · simp [ho]
  · simp [ho, Ne.symm ho]

end Lined

variable {a : Assignment} {e : Stop}

theorem Picks.lined (hy : Picks x o (.ok a) y) (h : Lined q x) (hx : Sound T x)
    (hT : T.Pairwise fun t t' => t.toNat < t'.toNat) (ho : x.owners.isLive o = true) :
    q.turn T o = some a.tag ∧ Lined (q.serve T o) y := by
  cases hy with
  | @held i r hheld hi =>
    have hturn := h.turn_of_held (o := o) hx hheld hi
    obtain ⟨r', hi', hr⟩ := TagPool.held?_eq_some hheld
    obtain rfl := Option.some.inj (hi.symm.trans hi')
    have howner := (TagRecord.liveOwner_eq_some_iff.mp hr).1
    have hmoved := h.moved (y := x.renewed i r o) hx hi rfl rfl howner rfl ho
      fun _ => Owners.isLive_bind
    simpa [Line.serve, hturn] using hmoved
  | @given r hheld hi hr =>
    have hturn := h.turn_of_unheld (o := o) hx hT hheld hi
    have hmoved := h.moved (y := x.rebound (x.pool.choice x.owners) r o) hx hi rfl rfl rfl rfl ho
      fun _ => Owners.isLive_bind.trans Owners.isLive_vacate
    simpa [Line.serve, hturn] using hmoved

theorem Picks.lined_stuck (hy : Picks x o (.error e) y) (h : Lined q x) (hx : Sound T x)
    (hT : T.Pairwise fun t t' => t.toNat < t'.toNat) :
    ∃ t, e = .abort (.flushFailed t) ∧ t ∈ x.trace.failing .everywhere ∧ q.turn T o = some t ∧
      q.tag? o = none ∧ Lined (q.without t) y := by
  cases hy with
  | @stuck r hheld hi hd hr =>
    refine ⟨r.tag, rfl, hr, h.turn_of_unheld hx hT hheld hi, h.tag?_of_unheld hheld, ?_⟩
    have hvac := h.vacated hx hi
    exact ⟨hvac.mem_iff, hvac.ordered, fun hj => Nat.le_succ_of_le (hvac.le_clock hj)⟩

theorem Step.lined (hstep : Step x d y) (h : Lined q x) (hx : Sound T x)
    (hT : T.Pairwise fun t t' => t.toNat < t'.toNat) : Lined (d.advance T q) y := by
  cases hstep with
  | create => exact h.create hx
  | @assign o a ho ha =>
    have hpick := picks hx.records_ne_nil o
    rw [ha] at hpick
    exact (hpick.lined h hx hT ho).2
  | @abort o e ho he =>
    have hpick := picks hx.records_ne_nil o
    rw [he] at hpick
    obtain ⟨t, -, -, hturn, -, hlined⟩ := hpick.lined_stuck h hx hT
    simpa [Deed.advance, Line.forgo, hturn] using hlined
  | @release o t =>
    rcases release_final x o with ⟨i, r, hheld, hi, heq⟩ | ⟨hheld, heq⟩
    · rw [heq, Deed.advance, ← h.without_eq_leave hx hheld hi]
      exact h.vacated hx hi
    · rw [heq, Deed.advance, Line.leave_eq_self (h.tag?_of_unheld hheld)]
      exact h
  | lookup => exact h
  | drop => exact h.drop _
  | rig => exact ⟨h.mem_iff, h.ordered, h.le_clock⟩

theorem Step.isLive (hstep : Step x d y) (hx : Sound T x) (ho : x.owners.isLive o = true)
    (hd : d.owner? ≠ some o) : y.owners.isLive o = true := by
  cases hstep with
  | create =>
    rw [Owners.isLive_eq, Owners.tag?_create]
    split
    · rfl
    · rwa [← Owners.isLive_eq]
  | assign hlive => rwa [(hx.assigns hlive).isLive_eq]
  | abort hlive => rwa [(hx.assigns hlive).isLive_eq]
  | @release o' t =>
    rcases release_final x o' with ⟨i, r, -, -, heq⟩ | ⟨-, heq⟩
    · rw [heq]
      exact Owners.isLive_vacate.trans ho
    · rwa [heq]
  | lookup => exact ho
  | @drop o' =>
    have hne : o' ≠ o := fun heq => hd (congrArg some heq)
    rwa [Owners.isLive_eq, Owners.tag?_drop, if_neg hne, ← Owners.isLive_eq]
  | rig => exact ho

variable {p : TagPool} {l : List Deed} {start size limit : Asid}

theorem Lined.of_create (hp : TagPool.create start size limit = .ok p) (w : Owners) :
    Lined [] ⟨p, w, {}⟩ := by
  obtain ⟨-, -, -, hrecords⟩ := TagPool.create_eq_ok hp
  have hnew {r : TagRecord} (hr : r ∈ p.records) : r.owner = none ∧ r.lastAssigned = 0 := by
    rw [hrecords] at hr
    obtain ⟨t, -, rfl⟩ := List.mem_map.mp hr
    exact ⟨rfl, rfl⟩
  refine ⟨fun {o t} => ?_, List.Pairwise.nil, fun hi => ?_⟩
  · simp only [List.not_mem_nil, false_iff]
    rintro ⟨r, hr, -, ho⟩
    simp [TagRecord.liveOwner, (hnew hr).1] at ho
  · simp [(hnew (List.mem_of_getElem? hi)).2]

/-- After any history the owners that hold a tag stand in the line that the deeds have formed. -/
theorem Run.lined (hp : TagPool.create start size limit = .ok p) (h : Run p l x) :
    Lined (Deed.lineUp (TagPool.tags start size) l) x := by
  obtain ⟨-, -, hle, -⟩ := TagPool.create_eq_ok hp
  induction h with
  | start => exact .of_create hp _
  | step h hstep ih => exact hstep.lined ih (h.sound hp) (TagPool.tags_sorted hle)

/-- A pool of the tags `T` serves its owners in turn after the deeds `l`. -/
structure InTurn (T : List Asid) (l : List Deed) (x : Tagging) : Prop where
  lookup : ∀ o, x.pool.lookup x.owners o = (Deed.lineUp T l).tag? o
  slot : ∀ o, x.owners.isLive o = true →
    x.owners.tag? o = some (((Deed.lineUp T l).tag? o).getD 0)
  /-- The line is in the order of the latest assignments that returned. -/
  order : ((Deed.lineUp T l).map Prod.fst).Sublist (l.filterMap Deed.served?).reverse.dedup
  next : ∀ o, x.owners.isLive o = true →
    (∃ a, (assign o).outcome x = .ok a ∧ (Deed.lineUp T l).turn T o = some a.tag) ∨
      ∃ t, (assign o).outcome x = .error (.abort (.flushFailed t)) ∧
        t ∈ x.trace.failing .everywhere ∧ (Deed.lineUp T l).turn T o = some t ∧
        (Deed.lineUp T l).tag? o = none
  others : ∀ {d y o}, Step x d y → x.owners.isLive o = true → d.owner? ≠ some o →
    y.owners.tag? o =
        some (if d.loser T (Deed.lineUp T l) = some o then 0 else x.owners.tag o) ∧
      y.pool.lookup y.owners o =
        if d.loser T (Deed.lineUp T l) = some o then none else x.pool.lookup x.owners o

theorem Run.order (hp : TagPool.create start size limit = .ok p) (h : Run p l x) :
    ((Deed.lineUp (TagPool.tags start size) l).map Prod.fst).Sublist
      (l.filterMap Deed.served?).reverse.dedup := by
  induction h with
  | start => exact List.Sublist.refl []
  | step h hstep ih => exact Deed.advance_sublist ((h.lined hp).single (h.sound hp)) ih

/-- Tags are handed out in turn: an owner gets the tag that it holds, or the lowest vacant one,
or the one of the owner that was served longest ago, which alone loses it. -/
theorem Run.served_in_turn (hp : TagPool.create start size limit = .ok p) (h : Run p l x) :
    InTurn (TagPool.tags start size) l x := by
  obtain ⟨-, -, hle, -⟩ := TagPool.create_eq_ok hp
  have hT := TagPool.tags_sorted hle
  have hx := h.sound hp
  have hlined := h.lined hp
  refine ⟨hlined.lookup_eq hx, fun o ho => ?_, h.order hp, fun o ho => ?_,
    fun {d y o} hstep ho hd => ?_⟩
  · rw [hx.tag?_eq ho, hlined.lookup_eq hx]
  · have hpick := picks hx.records_ne_nil o
    cases hres : (assign o).outcome x with
    | ok a =>
      rw [hres] at hpick
      exact Or.inl ⟨a, rfl, (hpick.lined hlined hx hT ho).1⟩
    | error e =>
      rw [hres] at hpick
      obtain ⟨t, rfl, hfail, hturn, htag, -⟩ := hpick.lined_stuck hlined hx hT
      exact Or.inr ⟨t, rfl, hfail, hturn, htag⟩
  · have hy := hstep.sound hx
    have hlook := (hstep.lined hlined hx hT).lookup_eq hy o
    rw [Deed.tag?_advance (hlined.single hx) hd, ← hlined.lookup_eq hx] at hlook
    refine ⟨?_, hlook⟩
    rw [hy.tag?_eq (hstep.isLive hx ho hd), hlook, Owners.tag_eq (hx.tag?_eq ho)]
    split <;> rfl

/-- A pool of the tags 2 and 3, held by the owners 1 and 2, next to owner 3. Owner 1 came first,
but it was served again after owner 2. -/
def crowded : Tagging :=
  (assign ⟨1⟩).final ((assign ⟨2⟩).final ((assign ⟨1⟩).final
    ⟨⟨[{ tag := 2 }, { tag := 3 }], 0⟩, ({} : Owners).create.create.create, {}⟩))

theorem run_crowded : Run ⟨[{ tag := 2 }, { tag := 3 }], 0⟩
    [.assigned ⟨1⟩ ⟨2, 0, true, false⟩, .assigned ⟨2⟩ ⟨3, 0, false, false⟩,
      .assigned ⟨1⟩ ⟨2, 0, false, false⟩, .created, .created, .created] crowded := by
  have hstart := Run.start (p := ⟨[{ tag := 2 }, { tag := 3 }], 0⟩) Owners.unbound_empty
  have hcreated := ((hstart.step .create).step .create).step .create
  have hone := hcreated.step (.assign (o := ⟨1⟩) (a := ⟨2, 0, false, false⟩)
    (by decide +kernel) (by decide +kernel))
  have htwo := hone.step (.assign (o := ⟨2⟩) (a := ⟨3, 0, false, false⟩)
    (by decide +kernel) (by decide +kernel))
  exact htwo.step (.assign (by decide +kernel) (by decide +kernel))

/-- It is owner 2 whose tag goes to owner 3. -/
theorem served_in_turn_crowded : (assign ⟨3⟩).outcome crowded = .ok ⟨3, 1, false, true⟩ ∧
    ((assign ⟨3⟩).final crowded).owners.tag? ⟨1⟩ = some 2 ∧
    ((assign ⟨3⟩).final crowded).owners.tag? ⟨2⟩ = some 0 := by
  have hpool : TagPool.create 2 2 100 = .ok ⟨[{ tag := 2 }, { tag := 3 }], 0⟩ := by decide
  have hturns := run_crowded.served_in_turn hpool
  have ha : (assign ⟨3⟩).outcome crowded = .ok ⟨3, 1, false, true⟩ := by decide +kernel
  have hstep := Step.assign (by decide +kernel) ha
  have hfirst := hturns.others (o := ⟨1⟩) hstep (by decide +kernel) (by decide)
  have hsecond := hturns.others (o := ⟨2⟩) hstep (by decide +kernel) (by decide)
  refine ⟨ha, hfirst.1.trans ?_, hsecond.1.trans ?_⟩
  · decide +kernel
  · decide +kernel

end Tagging

end Sandbox
