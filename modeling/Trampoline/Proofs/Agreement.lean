/-
Trampoline/Proofs/Agreement.lean

A trampoline can be the target of a trampoline.

For every list of parameter types, the code of a call with arguments of these types
and the prologue of a trampoline for them agree on where each argument is: in a
register or at an address above the stack pointer, at the moment the call is about
to be made.  The prologue copies at least as many bytes as the argument has.  This
holds for both conventions of x86-64, and on IA-32 for near calls with the C
convention, which is the one that a trampoline is entered with.
-/
import Mathlib
import Trampoline.Proofs.Amd64.Handover
import Trampoline.Proofs.Ia32.Handover

namespace Trampoline

open Memory (offset)

/-- Whether a call and the trampoline that it calls agree on the place of every argument, on
x86-64. -/
structure Amd64.Agrees (target : Target) (abi : Amd64.Abi) (frame : Frame) (site : CallSite)
    (callee : Frame) : Prop where
  /-- Whoever calls the trampoline, its prologue takes every parameter from its place at the
  call. -/
  entry : ∀ (r : Gpr) (t : State), Entering callee (target.prologueCode callee) r t →
    ∃ e h, step t = some e ∧ Reaches e h ∧
      h.rip = offset (t.gpr r) (target.prologueCode callee).length ∧
      Homed abi site.types callee t h
  /-- Wherever its code stands, the call leaves every argument in this place.  If it is the
  trampoline that is called, its home slots then have the arguments. -/
  call : ∃ f, target.callFragment frame site = .ok f ∧ (∃ g placed, f.resolve = .ok (g, placed)) ∧
    ∀ ls ms front back g placed, assemble ls = .ok front → assemble ms = .ok back →
      (front ++ f ++ back).resolve = .ok (g, placed) →
      ∀ base s, Poised abi frame site base g.code s → s.rip = offset base front.code.length →
        ∃ t, Reaches s t ∧ (∃ next, t.current? = some (.call .r11, next)) ∧
          Delivered abi frame site s t ∧
          (Awaiting abi frame site callee (target.prologueCode callee) s →
            ∃ e h, step t = some e ∧ Reaches e h ∧ Homed abi site.types callee t h ∧
              ∀ (i : Nat) (a : Operand) (slot : HomeSlot), site.args[i]? = some a →
                callee.homes[i]? = some slot → slot.type = a.type ∧ a.type.size ≤ 8 ∧
                  h.mem.read (offset (h.gpr .rbp) (-slot.offset.toInt)) a.type.size
                    = a.bytesIn frame (s.gpr .rbp) s.mem)

/-- Whether a near call and the trampoline that it calls agree on the place of every argument, on
IA-32. -/
structure Ia32.Agrees (frame : Frame) (site : CallSite) (callee : Frame) : Prop where
  /-- Whoever calls the trampoline, its prologue takes every parameter from its place at the
  call, as many bytes as are pushed for it. -/
  entry : ∀ (r : Gpr) (t : State), Entering callee (Target.ia32.prologueCode callee) r t →
    ∃ e h, step t = some e ∧ Reaches e h ∧
      h.eip = offset (t.gpr r) (Target.ia32.prologueCode callee).length ∧
      Homed site.types callee t h
  /-- Wherever its code stands, the call leaves every argument in this place.  If it is the
  trampoline that is called, its home slots then have the arguments. -/
  call : ∃ f, Target.ia32.callFragment frame site = .ok f ∧ f.literals = [] ∧
    ∀ s, Poised frame site f.code s →
      ∃ t, Reaches s t ∧ (∃ next, t.current? = some (.call .eax, next)) ∧
        Delivered frame site s t ∧
        (Awaiting frame site callee (Target.ia32.prologueCode callee) s →
          ∃ e h, step t = some e ∧ Reaches e h ∧ Homed site.types callee t h ∧
            ∀ (i : Nat) (a : Operand) (slot : HomeSlot), site.args[i]? = some a →
              callee.homes[i]? = some slot → slot.type = a.type ∧ a.slotBytes ≤ slot.type.stackSize32 ∧
                h.mem.read (offset (h.gpr .ebp) (-slot.offset.toInt)) a.slotBytes
                  = a.bytesIn32 frame (s.gpr .ebp) s.mem)

section

variable {params : List ValueType} {scratch buffers : List UInt32} {frame callee : Frame}
  {site : CallSite}

/-- A call of a trampoline has few arguments. -/
theorem length_args_lt (h : callee.Laid site.types buffers) : site.args.length < 2 ^ 27 := by
  have hcount : site.types.length ≤ 15 := h.params_le
  rw [CallSite.length_types] at hcount
  omega

theorem Amd64.agrees {target : Target} {abi : Abi} (htarget : target.abi? = some abi)
    (hl : frame.Laid params scratch) (hcallee : callee.Laid site.types buffers)
    (hvalid : ∀ a ∈ site.args, a.ValidIn frame) : Agrees target abi frame site callee := by
  have hlaw := Abi.lawful_of_target htarget
  have hargs := length_args_lt hcallee
  have hcode : target.prologueCode callee = encodeAll (prologue abi callee) := by
    rw [Target.prologueCode, htarget]
  obtain ⟨lines, hlines⟩ := exists_callLines hlaw hvalid
  refine ⟨?_, draft lines, ?_, exists_resolve_call htarget hargs hlines, ?_⟩
  · intro r t ht
    rw [hcode] at ht ⊢
    exact ht.homed hlaw hcallee
  · rw [callFragment_of_abi htarget]
    exact callFragment_eq_ok.mpr ⟨lines, hlines, rfl⟩
  intro ls ms front back g placed hfront hback hresolve base s hs hrip
  obtain ⟨t, before, hreaches, hcurrent, hdelivered, hruns⟩ :=
    hs.reaches_assembled hl hlaw hargs hlines hfront hback hresolve hrip
  refine ⟨t, hreaches, ⟨_, hcurrent⟩, hdelivered, fun hawait => ?_⟩
  rw [hcode] at hawait
  obtain ⟨e, h, hstep, hthrough, -, hhomed⟩ :=
    (hawait.entering hs hdelivered hruns ⟨_, hcurrent⟩).homed hlaw hcallee
  exact ⟨e, h, hstep, hthrough, hhomed, fun i a slot ha hslot =>
    hhomed.bytes hcallee hdelivered ha hslot⟩

theorem Ia32.agrees (hl : frame.Laid params scratch) (hcallee : callee.Laid site.types buffers)
    (hvalid : ∀ a ∈ site.args, a.ValidIn frame) (hcdecl : site.convention = .cdecl)
    (hnear : site.far = false) : Agrees frame site callee := by
  have hargs := length_args_lt hcallee
  obtain ⟨is, his⟩ := exists_callInstrs hvalid
  refine ⟨fun r t ht => Entering.homed hcallee ht, ⟨encodeAll is, []⟩,
    map_eq_ok.mpr ⟨is, his, rfl⟩, rfl, ?_⟩
  intro s hs
  obtain ⟨t, before, hreaches, hcurrent, hdelivered, hruns⟩ :=
    Poised.reaches hl hargs hvalid hcdecl hnear his hs
  refine ⟨t, hreaches, hcurrent, hdelivered, fun hawait => ?_⟩
  obtain ⟨e, h, hstep, hthrough, -, hhomed⟩ :=
    Entering.homed hcallee (hawait.entering hs hdelivered hruns hcurrent)
  exact ⟨e, h, hstep, hthrough, hhomed, fun i a slot ha hslot =>
    hhomed.bytes hcallee hdelivered ha hslot⟩

end

/-- The call side and the entry side agree for every list of parameter types: on x86-64 for both
conventions, and on IA-32 for near calls with the C convention. -/
theorem call_agrees_with_entry {params types : List ValueType} {scratch buffers : List UInt32}
    {frame callee : Frame} (hframe : Frame.layout params scratch = .ok frame)
    (hcallee : Frame.layout types buffers = .ok callee) {site : CallSite}
    (htypes : site.types = types) (hvalid : ∀ a ∈ site.args, a.ValidIn frame) :
    (∀ target abi, target.abi? = some abi → Amd64.Agrees target abi frame site callee) ∧
      (site.convention = .cdecl → site.far = false → Ia32.Agrees frame site callee) := by
  subst htypes
  have hl := Frame.laid_of_layout hframe
  have hl' := Frame.laid_of_layout hcallee
  exact ⟨fun target abi htarget => Amd64.agrees htarget hl hl' hvalid, Ia32.agrees hl hl' hvalid⟩

/-- Ten arguments of all sizes, for a call with the Microsoft convention and for one on IA-32: there
are states to start from, and the callee has every argument in its home slot. -/
theorem call_agrees_with_entry_ten_arguments :
    let site : CallSite := ⟨[.literal .float 0x3F800000, .forwarded .byte 0, .scratch 0,
      .literal .word 0xFFFFFFFFFFFF, .literal .dword 4, .literal .qword 5, .literal .byte 6,
      .forwarded .double 0, .literal .pointer 8, .scratch 0], 1048576, .cdecl, false⟩
    let frame : Frame := ⟨[⟨.qword, 8⟩], [⟨24, 32⟩], 8, 24⟩
    let callee : Frame := ⟨[⟨.float, 16⟩, ⟨.byte, 24⟩, ⟨.scratch, 32⟩, ⟨.word, 40⟩, ⟨.dword, 48⟩,
      ⟨.qword, 56⟩, ⟨.byte, 64⟩, ⟨.double, 80⟩, ⟨.pointer, 88⟩, ⟨.scratch, 96⟩], [⟨40, 136⟩], 96, 40⟩
    Frame.layout [.qword] [24] = .ok frame ∧ Frame.layout site.types [40] = .ok callee ∧
      (∃ f g placed s, Target.microsoft.callFragment frame site = .ok f ∧
        f.resolve = .ok (g, placed) ∧ Amd64.Poised .microsoft frame site 0 g.code s ∧ s.rip = 0 ∧
        Amd64.Awaiting .microsoft frame site callee (Target.microsoft.prologueCode callee) s ∧
        ∃ t e h, Reaches s t ∧ Amd64.step t = some e ∧ Reaches e h ∧
          ∀ (i : Nat) (a : Operand) (slot : HomeSlot), site.args[i]? = some a →
            callee.homes[i]? = some slot →
              h.mem.read (offset (h.gpr .rbp) (-slot.offset.toInt)) a.type.size
                = a.bytesIn frame (s.gpr .rbp) s.mem) ∧
      ∃ f s, Target.ia32.callFragment frame site = .ok f ∧ Ia32.Poised frame site f.code s ∧
        Ia32.Awaiting frame site callee (Target.ia32.prologueCode callee) s ∧
        ∃ t e h, Reaches s t ∧ Ia32.step t = some e ∧ Reaches e h ∧
          ∀ (i : Nat) (a : Operand) (slot : HomeSlot), site.args[i]? = some a →
            callee.homes[i]? = some slot →
              h.mem.read (offset (h.gpr .ebp) (-slot.offset.toInt)) a.slotBytes
                = a.bytesIn32 frame (s.gpr .ebp) s.mem := by
  intro site frame callee
  have hframe : Frame.layout [.qword] [24] = .ok frame := by decide
  have hcallee : Frame.layout site.types [40] = .ok callee := by decide
  have hsize : frame.size = 32 := by decide
  have hsize' : callee.size = 136 := by decide
  obtain ⟨hamd64, hia32⟩ := call_agrees_with_entry hframe hcallee rfl (by decide)
  refine ⟨hframe, hcallee, ?_, ?_⟩
  · have hdepth : Amd64.callDepth .microsoft frame site = 80 := by decide
    have hcheck : (Target.microsoft.callFragment frame site >>= Fragment.resolve).map
        (fun r => decide (r.1.code.length < 1000 ∧
          (Target.microsoft.prologueCode callee).length < 1000)) = .ok true := by decide +kernel
    obtain ⟨⟨g, placed⟩, hresolved, hlengths⟩ := map_eq_ok.mp hcheck
    obtain ⟨f, hf, hg⟩ := bind_eq_ok.mp hresolved
    obtain ⟨hlength, hlength'⟩ : g.code.length < 1000 ∧
      (Target.microsoft.prologueCode callee).length < 1000 := of_decide_eq_true hlengths
    obtain ⟨m, hm, hm'⟩ := Memory.exists_read_eq (0 : BitVec 64) g.code
      (Target.microsoft.prologueCode callee) (z := 1048576) (by omega) (by omega)
    let s : Amd64.State :=
      ⟨fun r => if r = .rsp then 1099511627744 else 1099511627776, fun _ => 0, 0, m⟩
    have hrbp : s.gpr .rbp = offset 0 1099511627776 :=
      show (1099511627776 : BitVec 64) = offset 0 1099511627776 by decide
    have htarget : site.callee.toBitVec = offset 0 1048576 := by decide
    have hs : Amd64.Poised .microsoft frame site 0 g.code s := by
      refine ⟨?_, ?_, hm, ?_⟩
      · rw [hrbp, hsize]
        show (1099511627744 : BitVec 64) = _
        decide
      · rw [hdepth, hsize]
        exact Nat.le_of_ble_eq_true rfl
      · rw [hrbp, hdepth, hsize, Memory.offset_offset, ← Memory.offset_zero (0 : BitVec 64),
          Memory.offset_offset]
        exact Memory.apart_offset (.inl (by omega)) (by omega) (by omega)
    have hawait : Amd64.Awaiting .microsoft frame site callee
        (Target.microsoft.prologueCode callee) s := by
      refine ⟨?_, ?_⟩
      · rw [htarget]
        exact hm'
      · rw [htarget, hrbp, hdepth, hsize, hsize', Memory.offset_offset]
        exact Memory.apart_offset (.inl (by omega)) (by omega) (by omega)
    obtain ⟨f', hf', -, hall⟩ := (hamd64 .microsoft .microsoft rfl).call
    obtain rfl : f' = f := Except.ok.inj (hf'.symm.trans hf)
    have halone : ({} ++ f' ++ {} : Fragment).resolve = .ok (g, placed) := by
      rw [Fragment.empty_append, Fragment.append_empty, hg]
    obtain ⟨t, hreaches, -, -, hentered⟩ := hall [] [] {} {} g placed rfl rfl halone 0 s hs rfl
    obtain ⟨e, h, hstep, hthrough, -, hhomes⟩ := hentered hawait
    exact ⟨f', g, placed, s, hf, hg, hs, rfl, hawait, t, e, h, hreaches, hstep, hthrough,
      fun i a slot ha hslot => (hhomes i a slot ha hslot).2.2⟩
  · have hdepth : Ia32.callDepth frame site = 56 := by decide
    have hcheck : (Target.ia32.callFragment frame site).map
        (fun f => decide (f.code.length < 1000 ∧
          (Target.ia32.prologueCode callee).length < 1000)) = .ok true := by decide +kernel
    obtain ⟨f, hf, hlengths⟩ := map_eq_ok.mp hcheck
    obtain ⟨hlength, hlength'⟩ := of_decide_eq_true hlengths
    obtain ⟨m, hm, hm'⟩ := Memory.exists_read_eq (0 : BitVec 32) f.code
      (Target.ia32.prologueCode callee) (z := 1048576) (by omega) (by omega)
    let s : Ia32.State :=
      ⟨fun r => if r = .esp then 1073741792 else 1073741824, fun _ => 0, 0, 0, m⟩
    have hebp : s.gpr .ebp = offset 0 1073741824 :=
      show (1073741824 : BitVec 32) = offset 0 1073741824 by decide
    have htarget : site.callee.toUInt32.toBitVec = offset 0 1048576 := by decide
    have hs : Ia32.Poised frame site f.code s := by
      refine ⟨?_, hm, ?_⟩
      · rw [hebp, hsize]
        show (1073741792 : BitVec 32) = _
        decide
      · rw [hebp, hdepth, hsize, Memory.offset_offset, ← Memory.offset_zero s.eip]
        exact Memory.apart_offset (.inl (by omega)) (by omega) (by omega)
    have hawait : Ia32.Awaiting frame site callee (Target.ia32.prologueCode callee) s := by
      refine ⟨?_, ?_⟩
      · rw [htarget]
        exact hm'
      · rw [htarget, hebp, hdepth, hsize, hsize', Memory.offset_offset]
        exact Memory.apart_offset (.inl (by omega)) (by omega) (by omega)
    obtain ⟨f', hf', -, hall⟩ := (hia32 rfl rfl).call
    obtain rfl : f' = f := Except.ok.inj (hf'.symm.trans hf)
    obtain ⟨t, hreaches, -, -, hentered⟩ := hall s hs
    obtain ⟨e, h, hstep, hthrough, -, hhomes⟩ := hentered hawait
    exact ⟨f', s, hf, hs, hawait, t, e, h, hreaches, hstep, hthrough,
      fun i a slot ha hslot => (hhomes i a slot ha hslot).2.2⟩

end Trampoline
