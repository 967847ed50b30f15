import Sandbox.Access
import Sandbox.Address

/-! # Mappings

A mapping says where one leaf puts its part of the address space.
-/

namespace Sandbox

structure Mapping where
  virtualBase : VirtualAddress
  physicalBase : PhysicalAddress
  size : Word
  opts : MapOptions
  deriving DecidableEq, Repr

namespace Mapping

def debugText (t : Mapping) : String :=
  Text.record "Translation" [("virtual_base", t.virtualBase.debugText),
    ("physical_base", t.physicalBase.debugText), ("size", toString t.size.toNat),
    ("opts", t.opts.debugText)]

end Mapping

end Sandbox
