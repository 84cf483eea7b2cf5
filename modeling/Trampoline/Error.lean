/-
Trampoline/Error.lean

The refusals of the builder and of the frame layout.  Each constructor is a
cause with the numbers that the message names; after an error the builder goes
on, unlike after a `Trampoline.Fault`.
-/

namespace Trampoline

/-- Why an operation was refused. -/
inductive Error
  /-- A declaration after building has begun. -/
  | frameFrozen
  /-- An operation that needs an open trampoline. -/
  | notBuilding
  /-- A second beginning while a trampoline is open. -/
  | alreadyBuilding
  /-- A flush of a trampoline that is still open. -/
  | unfinished
  /-- A beginning while a finished trampoline waits to be flushed. -/
  | unflushed
  /-- Pushed arguments that no call consumed. -/
  | pendingArguments (count : Nat)
  /-- More entry parameters than a frame takes. -/
  | tooManyParameters (count limit : Nat)
  /-- More scratch buffers than can be numbered. -/
  | tooManyScratch (limit : Nat)
  /-- A forwarded parameter that was not declared. -/
  | parameterIndex (index : UInt8) (declared : Nat)
  /-- A scratch buffer that was not declared. -/
  | scratchIndex (index : UInt8) (declared : Nat)
  /-- A far call on an instruction set whose encoder has none. -/
  | farCall (architecture : String)
  /-- A frame that 32-bit displacements cannot span. -/
  | frameTooLarge (size : Nat)
  /-- The operating system refused memory for the code. -/
  | memory (action cause : String)
  deriving DecidableEq, Repr

namespace Error

/-- The text reported for an error. -/
def message : Error → String
  | frameFrozen => "entry parameters and scratch allocations are frozen after begin()"
  | notBuilding => "no trampoline is being built; call begin() first"
  | alreadyBuilding => "begin() called while a trampoline is already being built"
  | unfinished => "trampoline is unfinished; call end() before flushing"
  | unflushed => "previous trampoline has not been flushed"
  | pendingArguments count => s!"{count} pushed arguments were never passed to func_call()"
  | tooManyParameters count limit => s!"too many entry parameters: {count} (limit {limit})"
  | tooManyScratch limit => s!"too many scratch allocations (limit {limit})"
  | parameterIndex index declared =>
      s!"entry parameter index {index} out of range ({declared} declared)"
  | scratchIndex index declared =>
      s!"scratch allocation index {index} out of range ({declared} declared)"
  | farCall architecture => s!"far calls are not supported on {architecture}"
  | frameTooLarge size =>
      s!"stack frame of {size} bytes exceeds the 32-bit displacement range"
  | memory action cause => s!"executable memory {action} failed: {cause}"

/-- The deeper cause behind an error, where there is one. -/
def cause? : Error → Option String
  | memory _ cause => some cause
  | _ => none

end Error

end Trampoline
