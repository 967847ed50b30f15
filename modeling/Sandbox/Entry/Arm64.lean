import Sandbox.Entry.Codec
import Sandbox.Register.Layout

/-! # ARM64 descriptors

Stage-1 descriptors with a 4 KiB granule. Page and table descriptors share one
type encoding, so a software bit marks the tables. A page of sandboxed code is
never executable for the supervisor, and the other way round.
-/

namespace Sandbox

namespace Arm64

def valid : BitField := { offset := 0, width := 1 }
def descriptor : BitField := { offset := 1, width := 1 }
def attrIndex : BitField := { offset := 2, width := 3 }
def nonSecure : BitField := { offset := 5, width := 1 }
def user : BitField := { offset := 6, width := 1 }
def readOnly : BitField := { offset := 7, width := 1 }
def shareability : BitField := { offset := 8, width := 2 }
def accessed : BitField := { offset := 10, width := 1 }
def notGlobal : BitField := { offset := 11, width := 1 }
def output : BitField := { offset := 12, width := 36 }
def dirtyBitModifier : BitField := { offset := 51, width := 1 }
def contiguous : BitField := { offset := 52, width := 1 }
def privilegedExecuteNever : BitField := { offset := 53, width := 1 }
def userExecuteNever : BitField := { offset := 54, width := 1 }
def software0 : BitField := { offset := 55, width := 1 }
def table : BitField := { offset := 56, width := 1 }

/-- Attribute slot of normal write-back memory. -/
def normalMemory : BitVec 3 := 4

def innerShareable : BitVec 2 := 3

def layout : RegisterLayout where
  typeName := "Arm64Bits"
  fields := [
    { name := "valid", field := valid, reading := .flag },
    { name := "descriptor", field := descriptor, reading := .flag },
    { name := "attr_index", field := attrIndex, reading := .number },
    { name := "non_secure", field := nonSecure, reading := .flag },
    { name := "user", field := user, reading := .flag },
    { name := "read_only", field := readOnly, reading := .flag },
    { name := "shareability", field := shareability, reading := .number },
    { name := "accessed", field := accessed, reading := .flag },
    { name := "not_global", field := notGlobal, reading := .flag },
    { name := "output", field := output, reading := .word },
    { name := "dirty_bit_modifier", field := dirtyBitModifier, reading := .flag },
    { name := "contiguous", field := contiguous, reading := .flag },
    { name := "privileged_execute_never", field := privilegedExecuteNever, reading := .flag },
    { name := "user_execute_never", field := userExecuteNever, reading := .flag },
    { name := "software0", field := software0, reading := .flag },
    { name := "table", field := table, reading := .flag }]

def codec : EntryCodec where
  optionMask := 0xffff000000000fff
  isValid := valid.flag
  isTable := table.flag
  frame := output
  options w :=
    ⟨⟨true, !readOnly.flag w,
        if user.flag w then !userExecuteNever.flag w else !privilegedExecuteNever.flag w⟩,
      !notGlobal.flag w, user.flag w⟩
  leafBits o :=
    (0 : Word) |> valid.setFlag true |> descriptor.setFlag true
      |> attrIndex.set normalMemory |> shareability.set innerShareable
      |> accessed.setFlag true |> readOnly.setFlag (!o.access.write)
      |> user.setFlag o.user |> notGlobal.setFlag (!o.global)
      |> userExecuteNever.setFlag (!(o.access.execute && o.user))
      |> privilegedExecuteNever.setFlag (!o.access.execute || o.user)
  tableBits :=
    (0 : Word) |> valid.setFlag true |> descriptor.setFlag true |> table.setFlag true

end Arm64

end Sandbox
