import Sandbox.Entry.Codec
import Sandbox.Register.Layout

/-! # Sv48 entries

The four-level entries of RISC-V. An entry without any of the three permissions
points at a deeper array. Leaves carry the accessed bit, and the dirty bit when
they are writable, since hardware may fault where these bits are clear.
-/

namespace Sandbox

namespace Sv48

def valid : BitField := { offset := 0, width := 1 }
def readable : BitField := { offset := 1, width := 1 }
def writable : BitField := { offset := 2, width := 1 }
def executable : BitField := { offset := 3, width := 1 }
def user : BitField := { offset := 4, width := 1 }
def global : BitField := { offset := 5, width := 1 }
def accessed : BitField := { offset := 6, width := 1 }
def dirty : BitField := { offset := 7, width := 1 }
def rsw : BitField := { offset := 8, width := 2 }
def ppn : BitField := { offset := 10, width := 44 }
def pbmt : BitField := { offset := 61, width := 2 }
def napot : BitField := { offset := 63, width := 1 }

def layout : RegisterLayout where
  typeName := "Sv48Bits"
  fields := [
    { name := "valid", field := valid, reading := .flag },
    { name := "readable", field := readable, reading := .flag },
    { name := "writable", field := writable, reading := .flag },
    { name := "executable", field := executable, reading := .flag },
    { name := "user", field := user, reading := .flag },
    { name := "global", field := global, reading := .flag },
    { name := "accessed", field := accessed, reading := .flag },
    { name := "dirty", field := dirty, reading := .flag },
    { name := "rsw", field := rsw, reading := .number },
    { name := "ppn", field := ppn, reading := .word },
    { name := "pbmt", field := pbmt, reading := .number },
    { name := "napot", field := napot, reading := .flag }]

def codec : EntryCodec where
  optionMask := 0x3ff
  isValid := valid.flag
  isTable w := !(readable.flag w || writable.flag w || executable.flag w)
  frame := ppn
  options w := ⟨⟨true, writable.flag w, executable.flag w⟩, global.flag w, user.flag w⟩
  leafBits o :=
    (0 : Word) |> valid.setFlag true |> readable.setFlag true
      |> writable.setFlag o.access.write |> executable.setFlag o.access.execute
      |> user.setFlag o.user |> global.setFlag o.global
      |> accessed.setFlag true |> dirty.setFlag o.access.write
  tableBits := valid.setFlag true 0

end Sv48

end Sandbox
