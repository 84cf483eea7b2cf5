/-
Trampoline/Encoder.lean

An encoder writes the code of one trampoline after another for its target.  It
counts the calls since the last prologue, and only its log shows the count.
-/
import Trampoline.Target

namespace Trampoline

/-- An encoder for one target. -/
structure Encoder where
  target : Target
  /-- The calls since the last prologue. -/
  calls : Nat := 0
  deriving DecidableEq, Repr

/-- What an encoder wrote: the encoder after it, the code and the log records. -/
structure Encoder.Output where
  encoder : Encoder
  fragment : Fragment
  events : List Event := []
  deriving DecidableEq, Repr

namespace Encoder

/-- The name of an encoder. -/
def name (e : Encoder) : String := e.target.name

/-- Writes the prologue for a frame and counts calls from zero again. -/
def prologue (e : Encoder) (frame : Frame) : Output where
  encoder := { e with calls := 0 }
  fragment := { code := e.target.prologueCode frame }
  events := e.target.prologueEvents frame

/-- Writes the epilogue for a frame. -/
def epilogue (e : Encoder) (frame : Frame) : Output where
  encoder := e
  fragment := { code := e.target.epilogueCode frame }

/-- Writes a call, unless the target refuses it. -/
def call (e : Encoder) (frame : Frame) (site : CallSite) :
    Except Fault (Except Error Output) :=
  match e.target.refusal? site with
  | some error => .ok (.error error)
  | none =>
      (e.target.callFragment frame site).map fun fragment => .ok {
        encoder := { e with calls := e.calls + 1 }
        fragment := fragment
        events := e.target.callEvents site (e.calls + 1) }

end Encoder

end Trampoline
