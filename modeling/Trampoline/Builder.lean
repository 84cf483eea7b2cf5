/-
Trampoline/Builder.lean

The builder of trampolines.  It is *idle* while entry parameters and scratch
buffers are declared, *building* from the beginning to the end of a trampoline,
and *finished* until the code is flushed.  While it builds, arguments are pushed
and calls consume them.

Every operation takes a builder to a `Step`: the answer, which may be an error,
the builder after it and the log records.  An error is no end: most leave the
builder as it was, a call that is refused has still consumed its arguments, and
an end with arguments left over has discarded them.  A flush asks the kernel for
memory, so it takes the kernel's answers too.  `Builder.apply` is all operations
in one, for statements about whole runs.
-/
import Trampoline.Encoder
import Trampoline.Listing
import Trampoline.Program

namespace Trampoline

/-- Where a builder stands. -/
inductive Phase
  | idle
  | building
  | finished
  deriving DecidableEq, Repr

/-- A builder. -/
structure Builder where
  encoder : Encoder
  /-- The code so far, with the literals that wait for their places. -/
  draft : Fragment := {}
  params : List ValueType := []
  scratch : List UInt32 := []
  frame : Frame := {}
  /-- The arguments pushed since the last call. -/
  pending : List Operand := []
  phase : Phase := .idle
  deriving DecidableEq, Repr

/-- A log record: of the builder and its encoders, or of a program and its memory. -/
inductive Record
  | event (event : Event)
  | memory (event : MemoryEvent)
  deriving DecidableEq, Repr

namespace Record

/-- The component that logs a record. -/
def component : Record → Component ⊕ MemoryEvent.Component
  | event e => .inl e.component
  | memory e => .inr e.component

/-- The level of a record. -/
def level : Record → Level
  | event e => e.level
  | memory e => e.level

/-- The text of a record. -/
def message : Record → String
  | event e => e.message
  | memory e => e.message

/-- The record of the builder or of an encoder, if it is one. -/
def event? : Record → Option Event
  | event e => some e
  | memory _ => none

end Record

/-- What an operation did. -/
structure Step (α : Type) where
  answer : Except Error α
  builder : Builder
  /-- The log records, first one first. -/
  log : List Record := []

namespace Step

/-- The same step with another answer. -/
def map {α β : Type} (f : α → β) (s : Step α) : Step β :=
  { answer := s.answer.map f, builder := s.builder, log := s.log }

/-- The log records of the builder and its encoders alone. -/
def events {α : Type} (s : Step α) : List Event := s.log.filterMap Record.event?

end Step

namespace Builder

/-- The most scratch buffers that can be declared: an index is one byte. -/
def maxScratch : Nat := 256

/-- A fresh builder for a target. -/
def create (target : Target) : Builder := { encoder := { target := target } }

/-- The name of what the builder builds for. -/
def name (b : Builder) : String := b.encoder.name

/-- The code so far. -/
def assembly (b : Builder) : Code := b.draft.code

/-- The listing of the code so far. -/
def listing (b : Builder) (perLine : Nat) : String := Listing.render perLine b.assembly

/-- An operation that is refused and changes nothing. -/
def refuse {α : Type} (b : Builder) (error : Error) : Step α := ⟨.error error, b, []⟩

/-! ### Declarations -/

/-- Declares the entry parameters, in place of those declared before. -/
def declareParameters (b : Builder) (types : List ValueType) : Step Unit :=
  if b.phase ≠ .idle then b.refuse .frameFrozen
  else if Frame.maxParameters < types.length then
    b.refuse (.tooManyParameters types.length Frame.maxParameters)
  else ⟨.ok (), { b with params := types }, []⟩

/-- Declares one more scratch buffer and answers its index. -/
def declareScratch (b : Builder) (size : UInt32) : Step UInt8 :=
  if b.phase ≠ .idle then b.refuse .frameFrozen
  else if maxScratch ≤ b.scratch.length then b.refuse (.tooManyScratch maxScratch)
  else ⟨.ok (UInt8.ofNat b.scratch.length), { b with scratch := b.scratch ++ [size] }, []⟩

/-! ### Building -/

/-- Freezes the declarations, lays out the frame and opens the trampoline. -/
def start (b : Builder) : Step Unit :=
  match b.phase with
  | .building => b.refuse .alreadyBuilding
  | .finished => b.refuse .unflushed
  | .idle =>
      match Frame.layout b.params b.scratch with
      | .error error => b.refuse error
      | .ok frame =>
          let out := b.encoder.prologue frame
          let began : Event := .began b.name b.params.length b.scratch.length frame.size
          { answer := .ok ()
            builder := { b with
              encoder := out.encoder
              draft := b.draft ++ out.fragment
              frame := frame
              phase := .building }
            log := (out.events ++ [began]).map .event }

/-- Pushes an argument for the next call. -/
def push (b : Builder) (a : Operand) : Step Unit :=
  if b.phase ≠ .building then b.refuse .notBuilding
  else ⟨.ok (), { b with pending := b.pending ++ [a] }, [.event (.pushed a)]⟩

/-- Pushes a literal. -/
def pushLiteral (b : Builder) (l : Literal) : Step Unit :=
  b.push (l.operand b.encoder.target.pointerSize)

/-- Pushes the entry parameter `index`, with its declared type. -/
def pushForwarded (b : Builder) (index : UInt8) : Step Unit :=
  match b.params[index.toNat]? with
  | some type => b.push (.forwarded type index)
  | none => b.refuse (.parameterIndex index b.params.length)

/-- Pushes the address of the scratch buffer `index`. -/
def pushScratch (b : Builder) (index : UInt8) : Step Unit :=
  if index.toNat < b.scratch.length then b.push (.scratch index)
  else b.refuse (.scratchIndex index b.scratch.length)

/-- Calls `callee` with the pending arguments.  They are consumed, whatever the outcome. -/
def call (b : Builder) (callee : UInt64) (convention : Convention) (far : Bool) :
    Except Fault (Step Unit) :=
  let site : CallSite := ⟨b.pending, callee, convention, far⟩
  let b := { b with pending := [] }
  if b.phase ≠ .building then .ok (b.refuse .notBuilding)
  else
    (b.encoder.call b.frame site).map fun
      | .error error => b.refuse error
      | .ok out =>
          ⟨.ok (), { b with encoder := out.encoder, draft := b.draft ++ out.fragment },
            out.events.map .event⟩

/-- Closes the trampoline and places its literals.  Arguments that no call consumed are an error:
they are discarded and the trampoline stays open. -/
def finish (b : Builder) : Except Fault (Step Unit) :=
  if b.phase ≠ .building then .ok (b.refuse .notBuilding)
  else if b.pending ≠ [] then
    .ok (refuse { b with pending := [] } (.pendingArguments b.pending.length))
  else
    let out := b.encoder.epilogue b.frame
    (b.draft ++ out.fragment).resolve.map fun (draft, placed) =>
      { answer := .ok ()
        builder := { b with encoder := out.encoder, draft := draft, phase := .finished }
        log := [.event (.finished b.name draft.code.length placed.length)] }

/-! ### Taking the code -/

/-- Discards everything and returns to the declarations. -/
def reset (b : Builder) : Builder := { encoder := b.encoder }

/-- Hands out the finished trampoline as a program and starts over.  With no code there is no
program.  Without memory for a program the trampoline stays. -/
def flush (b : Builder) (kernel : Kernel) : Step (Option Program) :=
  if b.assembly = [] then ⟨.ok none, b, []⟩
  else if b.phase = .building then b.refuse .unfinished
  else
    let acquired := Program.acquire .writeThenExecute kernel b.assembly
    match acquired.result with
    | .error error => ⟨.error error, b, acquired.events.map .memory⟩
    | .ok program =>
        ⟨.ok (some program), b.reset,
          acquired.events.map .memory ++ [.event (.flushed b.name program.length)]⟩

/-! ### Runs -/

/-- An operation on a builder, with what the kernel answers in the meantime. -/
inductive Operation
  | declareParameters (types : List ValueType)
  | declareScratch (size : UInt32)
  | start
  | pushLiteral (literal : Literal)
  | pushForwarded (index : UInt8)
  | pushScratch (index : UInt8)
  | call (callee : UInt64) (convention : Convention) (far : Bool)
  | finish
  | flush (kernel : Kernel := {})
  | reset
  deriving DecidableEq, Repr

/-- What an operation answers when it succeeds. -/
inductive Reply
  | done
  | index (i : UInt8)
  | program (p : Option Program)
  deriving DecidableEq, Repr

/-- Performs one operation. -/
def apply (b : Builder) : Operation → Except Fault (Step Reply)
  | .declareParameters types => .ok ((b.declareParameters types).map fun _ => .done)
  | .declareScratch size => .ok ((b.declareScratch size).map .index)
  | .start => .ok (b.start.map fun _ => .done)
  | .pushLiteral l => .ok ((b.pushLiteral l).map fun _ => .done)
  | .pushForwarded index => .ok ((b.pushForwarded index).map fun _ => .done)
  | .pushScratch index => .ok ((b.pushScratch index).map fun _ => .done)
  | .call callee convention far => (b.call callee convention far).map (Step.map fun _ => .done)
  | .finish => b.finish.map (Step.map fun _ => .done)
  | .flush kernel => .ok ((b.flush kernel).map .program)
  | .reset => .ok { answer := .ok .done, builder := b.reset }

/-- Performs operations one after the other; errors do not stop a run. -/
def run (b : Builder) : List Operation → Except Fault Builder
  | [] => .ok b
  | op :: ops => do
      let step ← b.apply op
      step.builder.run ops

end Builder

end Trampoline
