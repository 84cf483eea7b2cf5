/-
Trampoline/Frame.lean

The stack frame of a trampoline.  Below the saved frame pointer lie the home
slots, which keep the entry parameters for the whole run, and below them the
scratch buffers.  A slot is named by its distance from the frame pointer: its
bytes start at `fp - offset` and grow upward.

The layout counts in 64-bit words and hands out signed 32-bit offsets, because
those are what a memory operand can hold.  A frame beyond their range is refused
at the first scratch buffer that does not fit.
-/
import Trampoline.Error
import Trampoline.Operand

namespace Trampoline

/-- The place of one entry parameter. -/
structure HomeSlot where
  type : ValueType
  offset : Int32
  deriving DecidableEq, Repr

/-- The place of one scratch buffer. -/
structure ScratchSlot where
  size : UInt32
  offset : Int32
  deriving DecidableEq, Repr

/-- The slots of a frame; the empty frame has none. -/
structure Frame where
  homes : List HomeSlot := []
  scratch : List ScratchSlot := []
  homeBytes : UInt64 := 0
  scratchBytes : UInt64 := 0
  deriving DecidableEq, Repr, Inhabited

namespace Frame

/-- The most entry parameters that a frame has home slots for. -/
def maxParameters : Nat := 15

/-- The largest frame that signed 32-bit displacements can span. -/
def maxSize : UInt64 := 0x7FFFFFFF

/-- The bytes of a scratch buffer, rounded up to a multiple of eight. -/
def roundUp8 (size : UInt32) : UInt64 := (size.toUInt64 + 7) &&& ~~~7

/-- The signed offset of a slot that ends a frame of `used` bytes. -/
def offsetOf (used : UInt64) : Int32 := used.toUInt32.toInt32

/-- Home slots for `types` below `used` bytes, and the bytes used after them. -/
def layoutHomes (used : UInt64) : List ValueType → List HomeSlot × UInt64
  | [] => ([], used)
  | type :: types =>
      let used := used + type.homeSize
      let (slots, total) := layoutHomes used types
      (⟨type, offsetOf used⟩ :: slots, total)

/-- Scratch slots for `sizes` below `used` bytes, and the bytes used after them. -/
def layoutScratch (used : UInt64) : List UInt32 → Except Error (List ScratchSlot × UInt64)
  | [] => .ok ([], used)
  | size :: sizes =>
      let used := used + roundUp8 size
      if maxSize < used then .error (.frameTooLarge used.toNat)
      else (layoutScratch used sizes).map fun (slots, total) =>
        (⟨size, offsetOf used⟩ :: slots, total)

/-- The frame with a home slot for each parameter and a slot for each scratch buffer. -/
def layout (params : List ValueType) (scratch : List UInt32) : Except Error Frame :=
  if maxParameters < params.length then
    .error (.tooManyParameters params.length maxParameters)
  else
    let (homes, homeBytes) := layoutHomes 0 params
    (layoutScratch homeBytes scratch).map fun (slots, total) =>
      ⟨homes, slots, homeBytes, total - homeBytes⟩

/-- The bytes between the saved frame pointer and the end of the frame. -/
def size (f : Frame) : Nat := (f.homeBytes + f.scratchBytes).toNat

/-- The home slot of the parameter `index`. -/
def home? (f : Frame) (index : UInt8) : Option HomeSlot := f.homes[index.toNat]?

/-- The slot of the scratch buffer `index`. -/
def scratch? (f : Frame) (index : UInt8) : Option ScratchSlot := f.scratch[index.toNat]?

/-- The offset of the parameter `index`, which has to be there. -/
def homeOffset (f : Frame) (index : UInt8) : Except Fault Int32 :=
  match f.home? index with
  | some slot => .ok slot.offset
  | none => .error (.noHomeSlot index)

/-- The offset of the scratch buffer `index`, which has to be there. -/
def scratchOffset (f : Frame) (index : UInt8) : Except Fault Int32 :=
  match f.scratch? index with
  | some slot => .ok slot.offset
  | none => .error (.noScratchSlot index)

end Frame

end Trampoline
