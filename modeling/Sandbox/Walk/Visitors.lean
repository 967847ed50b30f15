import Sandbox.Mapping
import Sandbox.Walk

/-! # Visitors

The five things that are done to the pages of a range: mapping, clearing and
changing permissions go through the whole range, while finding the first leaf and
testing for emptiness stop at the first valid one. What is the same for all pages of
a range is worked out once.
-/

namespace Sandbox

namespace Visitor

/-- Map each page at the same distance from `physical` as it has from `start`. The
result is whether a valid leaf was replaced by a different one. -/
def map (c : EntryCodec) (start : Word) (physical : PhysicalAddress) (o : MapOptions) :
    Visitor Bool :=
  let bits := c.bits? o
  let distance := physical.word - start
  { allocates := true
    visit := fun a word changed => do
      let target : PhysicalAddress := ⟨a + distance⟩
      let leaf ← c.leafWith bits target
      pure {
        entry := some leaf
        result := changed ||
          (c.isValid word && (c.address word != target || c.options word != o)) } }

/-- Clear each leaf. The result is whether there was one. -/
def unmap : Visitor Bool where
  allocates := false
  visit _ _ _ := pure { entry := some 0, result := true }

/-- Give each leaf new options. The result is whether a leaf changed. -/
def protect (c : EntryCodec) (o : MapOptions) : Visitor Bool :=
  let bits := c.bits? o
  { allocates := false
    visit := fun _ word changed => do
      if c.options word = o then
        pure { result := changed }
      else
        let leaf ← c.leafWith bits (c.address word)
        pure { entry := some leaf, result := true } }

/-- Find the first leaf. -/
def find (c : EntryCodec) : Visitor (Option Mapping) where
  allocates := false
  visit a word _ := pure {
    result := some ⟨⟨a⟩, c.address word, pageSize, c.options word⟩
    proceed := false }

/-- Find out whether there is a leaf. -/
def occupied : Visitor Bool where
  allocates := false
  visit _ _ _ := pure { result := true, proceed := false }

end Visitor

end Sandbox
