import Sandbox.Entry.Codec
import Sandbox.Register.Layout

/-! # x86-64 entries

Four-level paging with 4 KiB leaves only. Leaves and pointers look alike to the
hardware, so a bit that it ignores records which of the two an entry is.
-/

namespace Sandbox

namespace X86

def present : BitField := { offset := 0, width := 1 }
def writable : BitField := { offset := 1, width := 1 }
def user : BitField := { offset := 2, width := 1 }
def writeThrough : BitField := { offset := 3, width := 1 }
def cacheDisable : BitField := { offset := 4, width := 1 }
def accessed : BitField := { offset := 5, width := 1 }
def dirty : BitField := { offset := 6, width := 1 }
def largePage : BitField := { offset := 7, width := 1 }
def global : BitField := { offset := 8, width := 1 }
def table : BitField := { offset := 9, width := 1 }
def osAvailable : BitField := { offset := 10, width := 2 }
def frame : BitField := { offset := 12, width := 40 }
def noExecute : BitField := { offset := 63, width := 1 }

def layout : RegisterLayout where
  typeName := "X86Bits"
  fields := [
    { name := "present", field := present, reading := .flag },
    { name := "writable", field := writable, reading := .flag },
    { name := "user", field := user, reading := .flag },
    { name := "write_through", field := writeThrough, reading := .flag },
    { name := "cache_disable", field := cacheDisable, reading := .flag },
    { name := "accessed", field := accessed, reading := .flag },
    { name := "dirty", field := dirty, reading := .flag },
    { name := "large_page", field := largePage, reading := .flag },
    { name := "global", field := global, reading := .flag },
    { name := "table", field := table, reading := .flag },
    { name := "os_available", field := osAvailable, reading := .number },
    { name := "frame", field := frame, reading := .word },
    { name := "no_execute", field := noExecute, reading := .flag }]

def codec : EntryCodec where
  optionMask := 0x8000000000000fff
  isValid := present.flag
  isTable := table.flag
  frame := frame
  options w := ⟨⟨true, writable.flag w, !noExecute.flag w⟩, global.flag w, user.flag w⟩
  leafBits o :=
    (0 : Word) |> present.setFlag true |> accessed.setFlag true
      |> writable.setFlag o.access.write |> dirty.setFlag o.access.write
      |> user.setFlag o.user |> global.setFlag o.global
      |> noExecute.setFlag (!o.access.execute)
  tableBits :=
    (0 : Word) |> present.setFlag true |> writable.setFlag true |> user.setFlag true
      |> accessed.setFlag true |> table.setFlag true

end X86

end Sandbox
