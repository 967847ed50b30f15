import Sandbox.Checked

/-! # Register layouts

A layout lists the named fields of a register, lowest bits first, together with
the way each field's value is read. Bits outside the list are reserved and kept
by every update.
-/

namespace Sandbox

/-- How the value of a field is read. -/
inductive Reading
  | flag
  | number
  | word
  /-- Codes and their names; every other code reads as the first name. -/
  | choice (names : List (Nat × String))
  deriving DecidableEq, Repr

/-- A value read from a field. -/
inductive Reading.Value
  | flag (b : Bool)
  | number (n : Nat)
  | word (w : Word)
  | choice (name : String)
  deriving DecidableEq, Repr

/-- A field with its name; a hidden field is read only through other names. -/
structure NamedField where
  name : String
  field : BitField
  reading : Reading
  hidden : Bool := false
  deriving DecidableEq, Repr

structure RegisterLayout where
  typeName : String
  fields : List NamedField
  deriving DecidableEq, Repr

namespace Reading

/-- The name of a code. -/
def choiceName (names : List (Nat × String)) (code : Nat) : String :=
  ((names.lookup code).orElse fun _ => names.head?.map Prod.snd).getD ""

/-- The code of a name. -/
def choiceCode? (names : List (Nat × String)) (name : String) : Option Nat :=
  (names.find? fun c => c.2 == name).map Prod.fst

def Value.text : Value → String
  | .flag b => Text.flag b
  | .number n => toString n
  | .word w => toString w.toNat
  | .choice name => name

end Reading

namespace NamedField

def value (f : NamedField) (w : Word) : Reading.Value :=
  match f.reading with
  | .flag => .flag (f.field.flag w)
  | .number => .number (f.field.get w).toNat
  | .word => .word (f.field.word w)
  | .choice names => .choice (Reading.choiceName names (f.field.get w).toNat)

end NamedField

namespace RegisterLayout

/-- The fields that are read under their own names. -/
def visible (l : RegisterLayout) : List NamedField :=
  l.fields.filter fun f => !f.hidden

def field? (l : RegisterLayout) (name : String) : Option NamedField :=
  l.visible.find? fun f => f.name == name

def debugText (l : RegisterLayout) (w : Word) : String :=
  Text.record l.typeName (l.fields.map fun f => (f.name, (f.value w).text))

end RegisterLayout

end Sandbox
