import Sandbox.Proofs.Space.Inspect
import Sandbox.Proofs.Walk.Course

/-! # Scouts of the visitors

Each visitor has a scout that does the same on shapes, whatever the architecture. A scout that
maps needs frames that fit the codec, and those below 2 ^ 48 fit every codec.
-/

namespace Sandbox

open AddressSpace Walk

namespace Walk.Scout

variable {A : Architecture} {start stop : Word} {o : MapOptions}

/-- Map each page at the same distance from `physical` as it has from `start`. -/
def map (start : Word) (physical : PhysicalAddress) (o : MapOptions) : Scout Bool where
  allocates := true
  look x w changed :=
    let target : PhysicalAddress := ⟨x + (physical.word - start)⟩
    if target.isPageAligned then
      .ok {
        shape := some (.leaf target o)
        result := changed || (w != .free && w != .leaf target o) }
    else .error (.unalignedFrame target)

def unmap : Scout Bool where
  allocates := false
  look _ _ _ := .ok { shape := some .free, result := true }

def protect (o : MapOptions) : Scout Bool where
  allocates := false
  look _ w changed :=
    match w with
    | .leaf frame opts =>
      if opts = o then .ok { result := changed }
      else .ok { shape := some (.leaf frame o), result := true }
    | _ => .ok { result := changed }

def find : Scout (Option Mapping) where
  allocates := false
  look x w _ :=
    match w with
    | .leaf frame opts => .ok { result := some ⟨⟨x⟩, frame, pageSize, opts⟩, proceed := false }
    | _ => .ok { result := none, proceed := false }

def occupied : Scout Bool where
  allocates := false
  look _ _ _ := .ok { result := true, proceed := false }

theorem replaces_iff {w : Word} {b : PhysicalAddress} (hw : w = 0 ∨ A.codec.IsLeaf w) :
    (A.codec.shape w != .free && A.codec.shape w != .leaf b o) =
      (A.codec.isValid w && (A.codec.address w != b || A.codec.options w != o)) := by
  rcases hw with rfl | ⟨c, o', hl⟩
  · rw [A.lawful.shape_zero, A.lawful.isValid_zero]
    rfl
  · rw [hl.shape_eq A.lawful, hl.isValid A.lawful, hl.address_eq A.lawful, hl.options_eq A.lawful,
      Bool.eq_iff_iff]
    simp only [Bool.and_eq_true, Bool.or_eq_true, bne_iff_ne, ne_eq, reduceCtorEq,
      not_false_eq_true, true_and, Shape.leaf.injEq]
    exact Decidable.not_and_iff_or_not

theorem leads_map (ho : o.access.any = true) {physical : PhysicalAddress}
    (hfit : ∀ x, Inside start stop x → A.codec.Fits ⟨x + (physical.word - start)⟩) :
    (map start physical o.normalized).Leads A (Visitor.map A.codec start physical o.normalized)
      start stop where
  allocates := rfl
  leaves hv hw := map_leaves (MapOptions.any_normalized ho) hv hw
  maps := by
    intro _ x w r u hv
    obtain ⟨leaf, hleaf, rfl⟩ := map_visit (MapOptions.any_normalized ho) hv
    exact ⟨leaf, rfl, hleaf.isValid A.lawful⟩
  look := by
    intro x w r hx hw _
    simp only [Visitor.map, map]
    by_cases ha : (⟨x + (physical.word - start)⟩ : PhysicalAddress).isPageAligned = true
    · obtain ⟨leaf, hleaf, hof⟩ := leafWith_of_fits (MapOptions.any_normalized ho) ha (hfit x hx)
      have hshape := hof.shape_eq A.lawful
      rw [MapOptions.normalized_normalized] at hshape
      rw [if_pos ha, hleaf, replaces_iff hw, ← hshape]
      rfl
    · have hleaf : A.codec.leafWith (A.codec.bits? o.normalized) ⟨x + (physical.word - start)⟩ =
          .error (.unalignedFrame ⟨x + (physical.word - start)⟩) := by
        unfold EntryCodec.leafWith require
        rw [if_neg ha]
        rfl
      rw [if_neg ha, hleaf]
      rfl

theorem leads_unmap (A : Architecture) (start stop : Word) :
    unmap.Leads A Visitor.unmap start stop where
  allocates := rfl
  leaves hv hw := unmap_leaves hv hw
  maps := nofun
  look _ _ _ := by
    rw [unmap, ← A.lawful.shape_zero]
    rfl

theorem leads_protect (ho : o.access.any = true) :
    (protect o.normalized).Leads A (Visitor.protect A.codec o.normalized) start stop where
  allocates := rfl
  leaves hv hw := protect_leaves (MapOptions.any_normalized ho) hv hw
  maps := nofun
  look := by
    intro x w r hx hw hval
    obtain ⟨b, o', hl⟩ := isLeaf_of_visited hw hval
    rw [hl.shape_eq A.lawful]
    simp only [Visitor.protect, protect, hl.options_eq A.lawful]
    by_cases hopt : o'.normalized = o.normalized
    · rw [if_pos hopt, if_pos hopt]
      rfl
    · obtain ⟨leaf, hleaf, hof⟩ := leafWith_of_fits (MapOptions.any_normalized ho) hl.2.1
        (EntryCodec.compose_eq_ok_iff.mp hl.2.2).1
      have hshape := hof.shape_eq A.lawful
      rw [MapOptions.normalized_normalized] at hshape
      rw [if_neg hopt, if_neg hopt, hl.address_eq A.lawful, hleaf, ← hshape]
      rfl

theorem leads_find (A : Architecture) (start stop : Word) :
    find.Leads A (Visitor.find A.codec) start stop where
  allocates := rfl
  leaves := by
    intro x w r u w' hv hw
    cases hv
    cases hw
  maps := nofun
  look := by
    intro x w r hx hw hval
    obtain ⟨b, o', hl⟩ := isLeaf_of_visited hw hval
    rw [hl.shape_eq A.lawful]
    simp only [Visitor.find, hl.address_eq A.lawful, hl.options_eq A.lawful]
    rfl

theorem leads_occupied (A : Architecture) (start stop : Word) :
    occupied.Leads A Visitor.occupied start stop where
  allocates := rfl
  leaves := by
    intro x w r u w' hv hw
    cases hv
    cases hw
  maps := nofun
  look _ _ _ := rfl

end Walk.Scout

end Sandbox
