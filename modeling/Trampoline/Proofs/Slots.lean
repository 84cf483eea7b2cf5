/-
Trampoline/Proofs/Slots.lean

The slots of a frame do not overlap, and they fill it.

Home slots and scratch buffers differ in what they are for; in memory each is a
`Span`, some bytes at a distance below the frame pointer.  The layout puts one
span directly below the other, each with its length rounded up to a multiple of
eight (`Consecutive`).  That the spans are in order, apart from each other and
inside the frame follows from this alone, by induction on the list of spans.

Main result: `slots_fill_frame`.
-/
import Mathlib
import Trampoline.Proofs.Layout

namespace Trampoline

/-! ### Spans -/

/-- Bytes of a frame that start `offset` below the frame pointer and grow upward. -/
structure Span where
  offset : Int
  bytes : Nat
  deriving DecidableEq, Repr

namespace Span

/-- The addresses of a span in the frame at `fp`. -/
def addresses (fp : Int) (s : Span) : Set Int := Set.Ico (fp - s.offset) (fp - s.offset + s.bytes)

/-- The bytes that the frame has for a span. -/
def room (s : Span) : Nat := (s.bytes + 7) / 8 * 8

/-- The bytes that the frame has for spans. -/
def roomOf (spans : List Span) : Nat := (spans.map room).sum

@[simp] theorem roomOf_nil : roomOf [] = 0 := rfl

@[simp] theorem roomOf_cons (s : Span) (spans : List Span) :
    roomOf (s :: spans) = s.room + roomOf spans := rfl

theorem roomOf_append (spans more : List Span) :
    roomOf (spans ++ more) = roomOf spans + roomOf more := by
  simp [roomOf]

theorem bytes_le_room (s : Span) : s.bytes ≤ s.room := by
  rw [room]
  omega

/-- Whether spans lie one directly below the other, the first of them below `used` bytes. -/
def Consecutive (used : Int) : List Span → Prop
  | [] => True
  | s :: spans => s.offset = used + s.room ∧ Consecutive s.offset spans

/-- Spans whose offsets are the sums of the room up to them are consecutive. -/
theorem consecutive_of_sums {used : Int} {spans : List Span}
    (h : ∀ (i : Nat) (s : Span), spans[i]? = some s →
      s.offset = used + roomOf (spans.take (i + 1))) : Consecutive used spans := by
  induction spans generalizing used with
  | nil => trivial
  | cons s spans ih =>
      have hs : s.offset = used + s.room := by simpa using h 0 s rfl
      refine ⟨hs, ih fun i s' hs' => ?_⟩
      rw [h (i + 1) s' (by simpa using hs'), hs, List.take_succ_cons, roomOf_cons]
      push_cast
      ring

namespace Consecutive

variable {used : Int} {spans : List Span}

theorem append {more : List Span} (h : Consecutive used spans)
    (hmore : Consecutive (used + roomOf spans) more) : Consecutive used (spans ++ more) := by
  induction spans generalizing used with
  | nil => simpa using hmore
  | cons s spans ih =>
      refine ⟨h.1, ih h.2 ?_⟩
      rw [h.1, add_assoc]
      exact_mod_cast hmore

/-- The last span ends the room of all. -/
theorem getLastD_offset (h : Consecutive used spans) :
    (spans.map (·.offset)).getLastD used = used + roomOf spans := by
  induction spans generalizing used with
  | nil => simp
  | cons s spans ih =>
      rw [List.map_cons, List.getLastD_cons, ih h.2, h.1, roomOf_cons]
      push_cast
      ring

/-- A span has its room below what was used before, and inside the room of all. -/
theorem bounds (h : Consecutive used spans) {s : Span} (hs : s ∈ spans) :
    used + s.room ≤ s.offset ∧ s.offset ≤ used + roomOf spans ∧ 8 ∣ s.offset - used := by
  induction spans generalizing used with
  | nil => cases hs
  | cons t spans ih =>
      have ht := h.1
      have hroom : 8 ∣ (t.room : Int) := by
        rw [room]
        omega
      rw [roomOf_cons]
      rcases List.mem_cons.mp hs with rfl | hs
      · refine ⟨ht.ge, ?_, ?_⟩ <;> omega
      · obtain ⟨hlo, hhi, hdvd⟩ := ih h.2 hs
        refine ⟨?_, ?_, ?_⟩ <;> omega

/-- A span lies below the ones before it. -/
theorem pairwise_below (h : Consecutive used spans) :
    spans.Pairwise fun s t : Span => s.offset + t.bytes ≤ t.offset := by
  induction spans generalizing used with
  | nil => exact List.Pairwise.nil
  | cons s spans ih =>
      refine List.pairwise_cons.mpr ⟨fun t ht => ?_, ih h.2⟩
      have hlo := (h.2.bounds ht).1
      have hbytes := t.bytes_le_room
      omega

end Consecutive

section Slots

variable {α β : Type} (span : α → Span) (key : α → β) (width : β → Nat)

theorem roomOf_map (hroom : ∀ slot, (span slot).room = width (key slot)) (slots : List α) :
    roomOf (slots.map span) = ((slots.map key).map width).sum := by
  rw [roomOf, List.map_map, List.map_map]
  exact congrArg _ (List.map_congr_left fun slot _ => hroom slot)

/-- Slots whose offsets are sums of widths are consecutive. -/
theorem consecutive_map (hroom : ∀ slot, (span slot).room = width (key slot)) {used : Int}
    {slots : List α} (hoffset : ∀ (i : Nat) (slot : α), slots[i]? = some slot →
      (span slot).offset = used + (((slots.map key).take (i + 1)).map width).sum) :
    Consecutive used (slots.map span) := by
  refine consecutive_of_sums fun i s hs => ?_
  rw [List.getElem?_map, Option.map_eq_some_iff] at hs
  obtain ⟨slot, hslot, rfl⟩ := hs
  rw [hoffset i slot hslot, ← List.map_take, ← List.map_take, roomOf_map span key width hroom]

end Slots

/-- Spans one below the other have no address in common. -/
theorem disjoint_addresses {s t : Span} (h : s.offset + t.bytes ≤ t.offset) (fp : Int) :
    Disjoint (s.addresses fp) (t.addresses fp) := by
  rw [addresses, addresses, Set.disjoint_left]
  rintro a ⟨hlo, -⟩ ⟨-, hhi⟩
  omega

end Span

/-! ### The slots of a frame -/

/-- The bytes of a home slot. -/
def HomeSlot.span (slot : HomeSlot) : Span := ⟨slot.offset.toInt, slot.type.homeSize.toNat⟩

/-- The bytes of a home slot need no rounding. -/
theorem HomeSlot.room_span (slot : HomeSlot) : slot.span.room = slot.type.homeSize.toNat := by
  have hsize := (Frame.homeSize_toNat slot.type).1
  show (slot.type.homeSize.toNat + 7) / 8 * 8 = _
  split at hsize <;> omega

/-- The bytes of a scratch buffer. -/
def ScratchSlot.span (slot : ScratchSlot) : Span := ⟨slot.offset.toInt, slot.size.toNat⟩

namespace Frame

/-- The slots of a frame in the order of their declaration, parameters first. -/
def spans (f : Frame) : List Span := f.homes.map HomeSlot.span ++ f.scratch.map ScratchSlot.span

/-- What the slots of a frame for the given parameters and scratch buffers are. -/
structure Filled (params : List ValueType) (scratch : List UInt32) (f : Frame) : Prop where
  types : f.homes.map (·.type) = params
  sizes : f.scratch.map (·.size) = scratch
  disjoint : ∀ fp : Int, (f.spans.map (·.addresses fp)).Pairwise Disjoint
  inside : ∀ fp : Int, ∀ s ∈ f.spans, s.addresses fp ⊆ Set.Ico (fp - f.size) fp
  offset : ∀ s ∈ f.spans, 8 ∣ s.offset ∧ 0 ≤ s.offset ∧ s.offset < 2 ^ 31
  size : 8 ∣ f.size ∧ f.size < 2 ^ 31
  /-- Offsets do not decrease in the order of declaration. -/
  sorted : (f.spans.map (·.offset)).Pairwise (· ≤ ·)
  below_homes : ∀ slot ∈ f.scratch, f.homeBytes.toNat ≤ slot.offset.toInt
  homeBytes : f.homeBytes.toNat
    = 8 * params.countP (fun t => !t.isFloat) + 16 * params.countP (·.isFloat)
  scratchBytes : f.scratchBytes.toNat = (scratch.map fun size => (size.toNat + 7) / 8 * 8).sum
  /-- The frame ends with its last slot. -/
  size_eq : f.size = (f.spans.map (·.offset)).getLastD 0

namespace Laid

variable {params : List ValueType} {scratch : List UInt32} {f : Frame}

theorem roomOf_homes (h : f.Laid params scratch) :
    Span.roomOf (f.homes.map HomeSlot.span) = homeTotal params := by
  rw [Span.roomOf_map HomeSlot.span (·.type) (·.homeSize.toNat) HomeSlot.room_span, h.types]
  rfl

theorem roomOf_scratch (h : f.Laid params scratch) :
    Span.roomOf (f.scratch.map ScratchSlot.span) = scratchTotal scratch := by
  rw [Span.roomOf_map ScratchSlot.span (·.size) rounded fun _ => rfl, h.sizes]
  rfl

theorem consecutive_homes (h : f.Laid params scratch) :
    Span.Consecutive 0 (f.homes.map HomeSlot.span) := by
  refine Span.consecutive_map _ (·.type) (·.homeSize.toNat) HomeSlot.room_span ?_
  intro i slot hslot
  rw [h.types, zero_add]
  exact h.home hslot

theorem consecutive_scratch (h : f.Laid params scratch) :
    Span.Consecutive (homeTotal params) (f.scratch.map ScratchSlot.span) := by
  refine Span.consecutive_map _ (·.size) rounded (fun _ => rfl) fun i slot hslot => ?_
  rw [h.sizes]
  exact h.buffer hslot

theorem consecutive_spans (h : f.Laid params scratch) : Span.Consecutive 0 f.spans := by
  refine h.consecutive_homes.append ?_
  rw [h.roomOf_homes, zero_add]
  exact h.consecutive_scratch

/-- The slots have all of the frame. -/
theorem roomOf_spans (h : f.Laid params scratch) : Span.roomOf f.spans = f.size := by
  rw [spans, Span.roomOf_append, h.roomOf_homes, h.roomOf_scratch, h.size_eq]

theorem scratchBytes_eq (h : f.Laid params scratch) :
    f.scratchBytes.toNat = scratchTotal scratch := by
  have hsize := h.size_eq
  have hhome := h.homeBytes_eq
  have hlt := h.size_lt
  have hword := f.scratchBytes.toNat_lt
  rw [size, UInt64.toNat_add] at hsize hlt
  omega

end Laid

/-- **The slots of a frame fill it without overlap.** -/
theorem slots_fill_frame {params : List ValueType} {scratch : List UInt32} {f : Frame}
    (h : layout params scratch = .ok f) : f.Filled params scratch := by
  have hlaid := laid_of_layout h
  have hspans := hlaid.consecutive_spans
  have hroom := hlaid.roomOf_spans
  have hlt := hlaid.size_lt
  refine
    { types := hlaid.types
      sizes := hlaid.sizes
      disjoint := fun fp => List.pairwise_map.mpr ?disjoint
      inside := fun fp s hs => ?inside
      offset := fun s hs => ?offset
      size := ⟨Nat.dvd_of_mod_eq_zero hlaid.size_mod, hlt⟩
      sorted := List.pairwise_map.mpr ?sorted
      below_homes := fun slot hslot => ?below_homes
      homeBytes := by rw [hlaid.homeBytes_eq, homeTotal_eq_countP]
      scratchBytes := hlaid.scratchBytes_eq
      size_eq := by rw [hspans.getLastD_offset, zero_add, hroom] }
  case disjoint => exact hspans.pairwise_below.imp fun hst => Span.disjoint_addresses hst fp
  case inside =>
    obtain ⟨hlo, hhi, -⟩ := hspans.bounds hs
    have hbytes := s.bytes_le_room
    apply Set.Ico_subset_Ico
    · omega
    · omega
  case offset =>
    obtain ⟨hlo, hhi, hdvd⟩ := hspans.bounds hs
    rw [sub_zero] at hdvd
    refine ⟨hdvd, ?_, ?_⟩ <;> omega
  case sorted =>
    apply hspans.pairwise_below.imp
    intro s t hst
    omega
  case below_homes =>
    have hlo := (hlaid.consecutive_scratch.bounds (List.mem_map_of_mem hslot)).1
    rw [hlaid.homeBytes_eq]
    exact (Int.le_add_of_nonneg_right (Int.natCast_nonneg _)).trans hlo

/-- Three parameters, and three scratch buffers of which one is empty. -/
theorem slots_fill_frame_six :
    layout [.dword, .float, .double] [12, 0, 3]
        = .ok ⟨[⟨.dword, 8⟩, ⟨.float, 24⟩, ⟨.double, 40⟩], [⟨12, 56⟩, ⟨0, 56⟩, ⟨3, 64⟩], 40, 24⟩ ∧
      Filled [.dword, .float, .double] [12, 0, 3]
        ⟨[⟨.dword, 8⟩, ⟨.float, 24⟩, ⟨.double, 40⟩], [⟨12, 56⟩, ⟨0, 56⟩, ⟨3, 64⟩], 40, 24⟩ :=
  ⟨rfl, slots_fill_frame rfl⟩

end Frame

end Trampoline
