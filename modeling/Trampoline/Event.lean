/-
Trampoline/Event.lean

What encoders and the builder log.  An event is data: its level, the component
that logs it and its text are functions of it.
-/
import Trampoline.CallSite
import Trampoline.Placement
import Trampoline.Amd64.Register
import Trampoline.Ia32.Register

namespace Trampoline

/-- The weight of a log record. -/
inductive Level
  | warn
  | debug
  | trace
  deriving DecidableEq, Repr

/-- The part of the library that logs. -/
inductive Component
  | builder
  | amd64
  | ia32
  deriving DecidableEq, Repr

/-- Something worth a log record. -/
inductive Event
  /-- The builder opened a trampoline. -/
  | began (encoder : String) (params scratch frameBytes : Nat)
  /-- An argument was pushed. -/
  | pushed (operand : Operand)
  /-- The builder finished a trampoline. -/
  | finished (encoder : String) (bytes literals : Nat)
  /-- The builder handed out a trampoline. -/
  | flushed (encoder : String) (bytes : Nat)
  /-- A parameter got its home on x86-64. -/
  | homed64 (type : ValueType) (offset : Int32) (source : Placement Amd64.Reg)
  /-- A parameter got its home on IA-32. -/
  | homed32 (type : ValueType) (offset source : Int32)
  /-- A prologue on x86-64. -/
  | prologue64 (abi : String) (params frameBytes : Nat)
  /-- A prologue on IA-32. -/
  | prologue32 (params frameBytes : Nat)
  /-- A convention that makes no difference on x86-64. -/
  | conventionIgnored (abi : String) (convention : Convention)
  /-- An argument got its register on x86-64. -/
  | placed64 (index : Nat) (type : ValueType) (register : Amd64.Reg)
  /-- An argument got its register on IA-32. -/
  | placed32 (index : Nat) (type : ValueType) (register : Ia32.Gpr)
  /-- A call on x86-64, the `number`-th since the prologue. -/
  | called64 (abi : String) (number : Nat) (callee : UInt64) (args onStack : Nat)
  /-- A call on IA-32, the `number`-th since the prologue. -/
  | called32 (convention : Convention) (number : Nat) (callee : UInt64) (args stackBytes : Nat)
  deriving DecidableEq, Repr

namespace Event

/-- The level of an event. -/
def level : Event → Level
  | conventionIgnored .. => .warn
  | pushed .. | homed64 .. | homed32 .. | placed64 .. | placed32 .. => .trace
  | began .. | finished .. | flushed .. | prologue64 .. | prologue32 .. | called64 ..
  | called32 .. => .debug

/-- The component that logs an event. -/
def component : Event → Component
  | began .. | pushed .. | finished .. | flushed .. => .builder
  | homed64 .. | prologue64 .. | conventionIgnored .. | placed64 .. | called64 .. => .amd64
  | homed32 .. | prologue32 .. | placed32 .. | called32 .. => .ia32

/-- An address in lower-case hexadecimal digits. -/
def address (a : UInt64) : String := "0x" ++ String.ofList (Nat.toDigits 16 a.toNat)

/-- The spelling of a placement. -/
def place : Placement Amd64.Reg → String
  | .reg r => s!"Reg({r.spelling})"
  | .stack => "Stack"

/-- The text of an event. -/
def message : Event → String
  | began encoder params scratch frameBytes =>
      s!"{encoder}: begin, {params} params, {scratch} scratch, frame {frameBytes} bytes"
  | pushed operand => s!"push {operand.spelling}"
  | finished encoder bytes literals => s!"{encoder}: end, {bytes} bytes, {literals} literals"
  | flushed encoder bytes => s!"{encoder}: flush, {bytes} bytes"
  | homed64 type offset source => s!"home {type.name} at rbp-{offset} from {place source}"
  | homed32 type offset source => s!"home {type.name} at ebp-{offset} from ebp+{source}"
  | prologue64 abi params frameBytes =>
      s!"{abi}: prologue, {params} params, frame {frameBytes} bytes"
  | prologue32 params frameBytes => s!"x86: prologue, {params} params, frame {frameBytes} bytes"
  | conventionIgnored abi convention => s!"{abi}: {convention.spelling} has no effect on x86-64"
  | placed64 index type register => s!"arg {index}: {type.name} -> {register.spelling}"
  | placed32 index type register => s!"arg {index}: {type.name} -> {register.spelling}"
  | called64 abi number callee args onStack =>
      s!"{abi}: call #{number} to {address callee}, {args} args, {onStack} on stack"
  | called32 convention number callee args stackBytes =>
      s!"x86: {convention.spelling} call #{number} to {address callee}, {args} args, " ++
        s!"{stackBytes} stack bytes"

end Event

end Trampoline
