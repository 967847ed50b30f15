import Sandbox.Word
import Sandbox.Text
import Sandbox.Address
import Sandbox.Access
import Sandbox.Canonical
import Sandbox.Level
import Sandbox.BitField
import Sandbox.Owner
import Sandbox.Mapping
import Sandbox.Abort
import Sandbox.Checked
import Sandbox.Register.Layout
import Sandbox.Register.Satp
import Sandbox.Register.Cr3
import Sandbox.Register.Ttbr0
import Sandbox.Register.Scause
import Sandbox.Register.Sstatus
import Sandbox.Entry.Codec
import Sandbox.Entry.Sv48
import Sandbox.Entry.X86
import Sandbox.Entry.Arm64
import Sandbox.Entry.Array
import Sandbox.Architecture
import Sandbox.Trap.Frame
import Sandbox.Trap.Cause
import Sandbox.Trap.Exit
import Sandbox.Trap.FpFile
import Sandbox.Log
import Sandbox.Action
import Sandbox.Memory
import Sandbox.Walk
import Sandbox.Walk.Visitors
import Sandbox.AddressSpace
import Sandbox.Tag.Owners
import Sandbox.Event
import Sandbox.Tag.Pool
import Sandbox.Tag.Assign
import Sandbox.CpuSet
import Sandbox.Kernel
import Sandbox.Hardware
import Sandbox.Cpu
import Sandbox.ScriptedMachine
import Sandbox.Scenario.Command
import Sandbox.Scenario.World
import Sandbox.Scenario.Play
import Sandbox.Proofs.Realm.Mapping
import Sandbox.Proofs.Realm.Unmapping
import Sandbox.Proofs.Realm.Structure
import Sandbox.Proofs.Tag.Reuse
import Sandbox.Proofs.Tag.Bindings
import Sandbox.Proofs.Cpu.Isolation
import Sandbox.Proofs.Cpu.Privacy
import Sandbox.Proofs.Realm.Sharing
import Sandbox.Proofs.Realm.Economy
import Sandbox.Proofs.Realm.Shortage
import Sandbox.Proofs.Realm.Reports
import Sandbox.Proofs.Realm.Balance
import Sandbox.Proofs.Realm.Portability
import Sandbox.Proofs.Realm.Separation
import Sandbox.Proofs.Realm.Translation
import Sandbox.Proofs.Realm.Acceptance
import Sandbox.Proofs.Entry.Words
import Sandbox.Proofs.Realm.Scanning
import Sandbox.Proofs.Realm.Splitting
import Sandbox.Proofs.Realm.Repetition
import Sandbox.Proofs.Tag.Line
import Sandbox.Proofs.Tag.Recency
import Sandbox.Proofs.Tag.Interruption
import Sandbox.Proofs.Cpu.FailedFlush
import Sandbox.Proofs.Cpu.Journal
import Sandbox.Proofs.Memory.Ledger
import Sandbox.Proofs.Realm.Unreported
import Sandbox.Proofs.Cpu.Turns
import Sandbox.Proofs.Cpu.Stranded
import Sandbox.Proofs.Cpu.Entrance
import Sandbox.Proofs.Entry.Roots
import Sandbox.Proofs.Cpu.Exits
import Sandbox.Proofs.Cpu.Registry
import Sandbox.Proofs.Realm.Walks
import Sandbox.Proofs.Space.Boundaries
import Sandbox.Proofs.Entry.Fields
