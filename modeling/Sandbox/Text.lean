/-! # Record text

Diagnostic text shows a record as its name and its fields in order,
a name alone for an enumeration, and `Some` or `None` for an optional value.
-/

namespace Sandbox

namespace Text

private def fieldList (fields : List (String × String)) : String :=
  String.intercalate ", " (fields.map fun f => f.1 ++ ": " ++ f.2)

/-- A record with all its fields. -/
def record (typeName : String) (fields : List (String × String)) : String :=
  typeName ++ " \x7b " ++ fieldList fields ++ " \x7d"

/-- A record that shows only some of its fields. -/
def openRecord (typeName : String) (fields : List (String × String)) : String :=
  typeName ++ " \x7b " ++ fieldList fields ++ ", .. \x7d"

/-- A name applied to one value. -/
def wrapped (constructorName value : String) : String :=
  constructorName ++ "(" ++ value ++ ")"

def optional : Option String → String
  | none => "None"
  | some value => wrapped "Some" value

def flag (b : Bool) : String :=
  if b then "true" else "false"

def quoted (s : String) : String :=
  "\"" ++ s ++ "\""

end Text

end Sandbox
