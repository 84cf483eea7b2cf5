/-
Trampoline/Program.lean

A finished trampoline in memory of its own.  Memory comes in whole pages, at
least one, and the code stands at its start.

What the kernel answers when it is asked for memory is data (`Kernel`): how large
a page is, where the pages are or why there are none, and whether they may become
executable.  `Program.acquire` is a function of these answers and of the code.  It
gives the program or an error, and what was logged on the way.
-/
import Trampoline.Error
import Trampoline.Event

namespace Trampoline

/-- How the pages of a program come to be executable: written first and then made executable, or
writable and executable throughout. -/
inductive Protection
  | writeThenExecute
  | writeAndExecute
  deriving DecidableEq, Repr

/-! ### Pages -/

/-- Whole pages of memory. -/
structure Mapping where
  protection : Protection
  /-- The address of the first page. -/
  base : UInt64
  size : UInt64
  deriving DecidableEq, Repr

namespace Mapping

/-- The bytes of a memory page of the machine that this library runs on. -/
def pageSize : UInt64 := 4096

/-- An address that stands for pages which are nowhere in particular. -/
def placeholder : UInt64 := 0x7F0000000000

/-- The bytes of the pages that hold `length` bytes, and of one page at least.  `page` is a
power of two, so clearing its low bits rounds down to a multiple of it. -/
def roundToPage (length page : UInt64) : UInt64 :=
  (max length 1 + page - 1) &&& ~~~(page - 1)

/-- Pages of `page` bytes for `code`, the first one at `base`. -/
def forCode (protection : Protection) (page base : UInt64) (code : Code) : Mapping :=
  ⟨protection, base, roundToPage (UInt64.ofNat code.length) page⟩

end Mapping

/-! ### What the kernel answers -/

/-- The answer to a request: what was asked for, or why it is refused. -/
inductive Answer (α : Type)
  | granted (value : α)
  | refused (cause : String)
  deriving DecidableEq, Repr

/-- What the kernel answers to a program that asks for memory. -/
structure Kernel where
  /-- The bytes of a memory page, a power of two. -/
  page : UInt64 := Mapping.pageSize
  /-- The address of fresh pages. -/
  pages : Answer UInt64 := .granted Mapping.placeholder
  /-- That pages which were written become executable. -/
  execution : Answer Unit := .granted ()
  deriving DecidableEq, Repr

/-- What is logged when a program gets its memory. -/
inductive MemoryEvent
  /-- Pages hold a copy of the code. -/
  | mapped (size base : UInt64) (bytes : Nat)
  /-- The program is complete. -/
  | placed (bytes : Nat) (base capacity : UInt64)
  deriving DecidableEq, Repr

namespace MemoryEvent

/-- The part of the library that logs. -/
inductive Component
  | memory
  | program
  deriving DecidableEq, Repr

/-- The component that logs an event. -/
def component : MemoryEvent → Component
  | mapped .. => .memory
  | placed .. => .program

/-- The level of an event. -/
def level : MemoryEvent → Level
  | mapped .. => .trace
  | placed .. => .debug

/-- The text of an event. -/
def message : MemoryEvent → String
  | mapped size base bytes =>
      s!"mapped {size} bytes at {Event.address base} for {bytes} bytes of code"
  | placed bytes base capacity =>
      s!"program: {bytes} bytes at {Event.address base} ({capacity} mapped)"

end MemoryEvent

/-! ### Programs -/

/-- Code in pages of its own. -/
structure Program where
  mapping : Mapping
  code : Code
  deriving DecidableEq, Repr

/-- What came of a request for memory: a program or an error, and what was logged. -/
structure Program.Acquisition where
  result : Except Error Program
  events : List MemoryEvent

namespace Program

/-- The program with the given code, in pages of `page` bytes from `base` on. -/
def inPages (protection : Protection) (page base : UInt64) (code : Code) : Program :=
  ⟨Mapping.forCode protection page base code, code⟩

/-- The program with the given code. -/
def ofCode (protection : Protection) (code : Code) : Program :=
  inPages protection Mapping.pageSize Mapping.placeholder code

/-- The bytes of the code. -/
def length (p : Program) : Nat := p.code.length

/-- The bytes of the pages that hold the code. -/
def capacity (p : Program) : UInt64 := p.mapping.size

/-- The address of the first instruction. -/
def entry (p : Program) : UInt64 := p.mapping.base

/-- The distance of the first instruction from the start of the pages. -/
def entryOffset (p : Program) : Nat := (p.entry - p.mapping.base).toNat

/-- Asks the kernel for pages, copies the code there and makes it executable.  Only pages that were
written first still have to become executable. -/
def acquire (protection : Protection) (kernel : Kernel) (code : Code) : Acquisition :=
  match kernel.pages with
  | .refused cause => ⟨.error (.memory "mmap" cause), []⟩
  | .granted base =>
      let program := inPages protection kernel.page base code
      let mapped : MemoryEvent := .mapped program.capacity base program.length
      match protection, kernel.execution with
      | .writeThenExecute, .refused cause => ⟨.error (.memory "mprotect" cause), [mapped]⟩
      | _, _ => ⟨.ok program, [mapped, .placed program.length base program.capacity]⟩

end Program

end Trampoline
