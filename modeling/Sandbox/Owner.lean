import Std.Data.ExtTreeMap
import Sandbox.Text

/-! # Owners

Every address space and every free-standing tag slot has an identity of its own.
Identities are handed out in ascending order and never again.
-/

namespace Sandbox

structure OwnerId where
  number : Nat
  deriving DecidableEq, Repr

namespace OwnerId

def debugText (o : OwnerId) : String :=
  Text.wrapped "PageTablesId" (toString o.number)

instance : Ord OwnerId := ⟨compareOn OwnerId.number⟩

instance : Std.TransOrd OwnerId :=
  inferInstanceAs (Std.TransCmp (compareOn OwnerId.number))

instance : Std.LawfulEqOrd OwnerId where
  eq_of_compare {a b} h := by
    have : a.number = b.number := Std.LawfulEqOrd.eq_of_compare (α := Nat) h
    cases a; cases b; simp_all

end OwnerId

end Sandbox
