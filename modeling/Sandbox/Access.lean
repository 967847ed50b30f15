import Sandbox.Text

/-! # Permissions

What a mapping grants and what a fault asked for. Every valid leaf is readable,
so options read back with the read permission that any other permission implies.
-/

namespace Sandbox

structure Access where
  read : Bool
  write : Bool
  execute : Bool
  deriving DecidableEq, Repr

namespace Access

def none : Access := ⟨false, false, false⟩
def readOnly : Access := ⟨true, false, false⟩
def readWrite : Access := ⟨true, true, false⟩
def readExecute : Access := ⟨true, false, true⟩
def all : Access := ⟨true, true, true⟩

/-- Whether anything is granted. -/
def any (a : Access) : Bool :=
  a.read || a.write || a.execute

/-- Three letters, with a dash for each permission that is missing. -/
def text (a : Access) : String :=
  String.ofList [if a.read then 'r' else '-', if a.write then 'w' else '-',
    if a.execute then 'x' else '-']

end Access

/-- Options of a leaf mapping; no access at all means unmapped. -/
structure MapOptions where
  access : Access
  global : Bool
  user : Bool
  deriving DecidableEq, Repr

namespace MapOptions

/-- A mapping for sandboxed code. -/
def forUser (a : Access) : MapOptions := ⟨a, false, true⟩

/-- A mapping for the supervisor, shared by all tags. -/
def forKernel (a : Access) : MapOptions := ⟨a, true, false⟩

/-- The options that a valid leaf reads back as. -/
def normalized (o : MapOptions) : MapOptions :=
  if o.access.any then { o with access := { o.access with read := true } } else o

def debugText (o : MapOptions) : String :=
  Text.record "MapOpts" [("access", o.access.text), ("global", Text.flag o.global),
    ("user", Text.flag o.user)]

end MapOptions

end Sandbox
