import Trampoline.Fault
import Trampoline.Error
import Trampoline.Code
import Trampoline.Listing
import Trampoline.Convention
import Trampoline.Operand
import Trampoline.Frame
import Trampoline.Placement
import Trampoline.CallSite
import Trampoline.Fragment
import Trampoline.Program
import Trampoline.Memory
import Trampoline.Isa.Opcode
import Trampoline.Isa.Displacement
import Trampoline.Isa.ModRm
import Trampoline.Isa.Reader
import Trampoline.Amd64.Register
import Trampoline.Amd64.Abi
import Trampoline.Amd64.Instr
import Trampoline.Amd64.Sequence
import Trampoline.Amd64.Decode
import Trampoline.Amd64.Machine
import Trampoline.Ia32.Register
import Trampoline.Ia32.Instr
import Trampoline.Ia32.Sequence
import Trampoline.Ia32.Decode
import Trampoline.Ia32.Machine
import Trampoline.Event
import Trampoline.Target
import Trampoline.Encoder
import Trampoline.Builder
import Trampoline.Demo
import Trampoline.CommandLine
import Trampoline.Main
import Trampoline.Proofs.Memory
import Trampoline.Proofs.Placement
import Trampoline.Proofs.Frame
import Trampoline.Proofs.Fragment
import Trampoline.Proofs.Resolution
import Trampoline.Proofs.Reader
import Trampoline.Proofs.Block
import Trampoline.Proofs.Following
import Trampoline.Proofs.Amd64.Decode
import Trampoline.Proofs.Amd64.Lines
import Trampoline.Proofs.Amd64.Block
import Trampoline.Proofs.Classification
import Trampoline.Proofs.Amd64.Abi
import Trampoline.Proofs.Amd64.Operands
import Trampoline.Proofs.Amd64.Call
import Trampoline.Proofs.Amd64.Emitter
import Trampoline.Proofs.Amd64.Prologue
import Trampoline.Proofs.Amd64.StackDiscipline
import Trampoline.Proofs.Target
import Trampoline.Proofs.Builder.Steps
import Trampoline.Proofs.Builder.Invariant
import Trampoline.Proofs.Writing
import Trampoline.Proofs.Builder.Assembly
import Trampoline.Proofs.Amd64.Execution
import Trampoline.Proofs.Amd64.Literals
import Trampoline.Proofs.Amd64.Correctness
import Trampoline.Proofs.Ia32.Decode
import Trampoline.Proofs.Ia32.Emitter
import Trampoline.Proofs.Ia32.Block
import Trampoline.Proofs.Ia32.Operands
import Trampoline.Proofs.Ia32.Call
import Trampoline.Proofs.Ia32.Prologue
import Trampoline.Proofs.Ia32.StackDiscipline
import Trampoline.Proofs.Ia32.Homing
import Trampoline.Proofs.Builder.Reuse
import Trampoline.Proofs.Layout
import Trampoline.Proofs.Slots
import Trampoline.Proofs.Builder.Refusals
import Trampoline.Proofs.Amd64.Homing
import Trampoline.Proofs.Amd64.Delivery
import Trampoline.Proofs.Amd64.Handover
import Trampoline.Proofs.Ia32.Delivery
import Trampoline.Proofs.Ia32.Handover
import Trampoline.Proofs.Agreement
import Trampoline.Proofs.Registers
import Trampoline.Proofs.Amd64.Immediates
import Trampoline.Proofs.Amd64.Dispatch
import Trampoline.Proofs.Listing
import Trampoline.Proofs.Program
