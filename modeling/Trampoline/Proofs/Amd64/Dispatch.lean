/-
Trampoline/Proofs/Amd64/Dispatch.lean

How many pushes a call makes.

An argument goes to the stack when the registers of its class are used up, so in
the end the number of stack arguments depends on how many arguments of each class
there are, and not on their order.  It is counted along the list: each argument
on the stack makes one more than the registers can hold
(`Budget.countP_isStack_placesFrom`).

On the side of the code, most instructions neither push nor pop nor leave the
straight line; the `Role`s of a block are those of the others, in order.  Each
stack argument has one push in its code, whatever its source, and the rest of a
call has only the call itself.

Main result: `pushes_of_call`.
-/
import Mathlib
import Trampoline.Encoder
import Trampoline.Proofs.Amd64.Call

namespace Trampoline

/-! ### Arguments beyond the registers -/

theorem Placement.isStack_ofReg? {R : Type} (o : Option R) :
    (Placement.ofReg? o).isStack = o.isNone := by
  cases o <;> rfl

namespace Budget

variable {R : Type} {b : Budget R}

/-- A number that grows by one with every argument on the stack counts them. -/
theorem countP_isStack_placesFrom (b : Budget R) (eligible : ValueType → Bool)
    (excess : List ValueType → Nat)
    (hstep : ∀ earlier t, excess (earlier ++ [t])
      = excess earlier + if (b.place eligible earlier t).isStack then 1 else 0)
    (earlier ts : List ValueType) :
    (b.placesFrom eligible earlier ts).countP (·.isStack) + excess earlier
      = excess (earlier ++ ts) := by
  induction ts generalizing earlier with
  | nil => simp [placesFrom]
  | cons t ts ih =>
      have hrest := ih (earlier ++ [t])
      rw [hstep, List.append_assoc, List.singleton_append] at hrest
      rw [placesFrom, List.countP_cons, ← hrest]
      omega

/-- Under the cursor rule, each class of arguments has its own registers. -/
theorem countP_isStack_of_cursor (hcursor : b.positional = false) (types : List ValueType) :
    (b.placesFrom (fun _ => true) [] types).countP (·.isStack)
      = (intsIn (fun _ => true) types - b.ints.length) + (floatsIn types - b.floats.length) := by
  have hcount := b.countP_isStack_placesFrom (fun _ => true)
    (fun ts => (intsIn (fun _ => true) ts - b.ints.length) + (floatsIn ts - b.floats.length))
    ?_ [] types
  · simpa [intsIn, floatsIn] using hcount
  intro earlier t
  have hstack : (b.place (fun _ => true) earlier t).isStack ↔
      if t.isFloat then b.floats.length ≤ floatsIn earlier
      else b.ints.length ≤ intsIn (fun _ => true) earlier := by
    rw [place, hcursor]
    split <;> simp [Placement.isStack_ofReg?]
  simp only [floatsIn_concat, intsIn_concat, hstack, Bool.and_true]
  by_cases hf : t.isFloat
  · simp only [hf, Bool.not_true, Bool.false_eq_true, if_true, if_false, Nat.add_zero]
    split <;> omega
  · simp only [hf, Bool.not_false, Bool.false_eq_true, if_true, if_false, Nat.add_zero]
    split <;> omega

/-- Under the positional rule, all arguments share one row of places. -/
theorem countP_isStack_of_positional (hpositional : b.positional = true)
    (hlength : b.floats.length = b.ints.length) (types : List ValueType) :
    (b.placesFrom (fun _ => true) [] types).countP (·.isStack)
      = types.length - b.ints.length := by
  have hcount := b.countP_isStack_placesFrom (fun _ => true)
    (fun ts => ts.length - b.ints.length) ?_ [] types
  · simpa using hcount
  intro earlier t
  have hstack : (b.place (fun _ => true) earlier t).isStack ↔ b.ints.length ≤ earlier.length := by
    rw [place, hpositional]
    split
    · simp [Placement.isStack_ofReg?, hlength]
    · simp [Placement.isStack_ofReg?]
  rw [List.length_append, List.length_singleton]
  simp only [hstack]
  split <;> omega

end Budget

namespace Amd64

theorem Abi.stacked_systemV (types : List ValueType) :
    Abi.systemV.stacked types
      = (Budget.intsIn (fun _ => true) types - 6) + (Budget.floatsIn types - 8) :=
  Budget.countP_isStack_of_cursor rfl types

theorem Abi.stacked_microsoft (types : List ValueType) :
    Abi.microsoft.stacked types = types.length - 4 :=
  Budget.countP_isStack_of_positional rfl rfl types

/-! ### Roles -/

/-- What an instruction does besides setting registers and storing: it pushes, it pops, or it
leaves the straight line. -/
inductive Role
  | push
  | pop
  | call (target : Gpr)
  | ret
  deriving DecidableEq, Repr

/-- The role of an instruction, if it has one. -/
def Instr.role? : Instr → Option Role
  | push _ | pushImm _ | pushMem _ _ => some .push
  | pop _ => some .pop
  | call target => some (.call target)
  | ret => some .ret
  | _ => none

/-- The roles in a block, in order. -/
def roles (is : List Instr) : List Role := is.filterMap Instr.role?

theorem roles_append (is js : List Instr) : roles (is ++ js) = roles is ++ roles js :=
  List.filterMap_append

theorem roles_cons_of_none {i : Instr} (h : i.role? = none) (is : List Instr) :
    roles (i :: is) = roles is :=
  List.filterMap_cons_none h

theorem role?_loadImm (w : Width) (dst : Gpr) (value : UInt64) :
    (Instr.loadImm w dst value).role? = none := by
  rw [Instr.loadImm]
  split
  · rfl
  split
  · rfl
  split <;> rfl

theorem roles_adjustStack (op : Arith) (bytes : Nat) : roles (adjustStack op bytes) = [] := by
  rw [adjustStack]
  split <;> rfl

theorem roles_countVectors (abi : Abi) (count : Nat) : roles (countVectors abi count) = [] := by
  rw [countVectors]
  split
  · exact roles_cons_of_none (role?_loadImm _ _ _) []
  · rfl

/-- The code of a stack argument has one push. -/
theorem roles_pushOperand {frame : Frame} {a : Operand} {is : List Instr}
    (h : pushOperand frame a = .ok is) : roles is = [.push] := by
  rw [pushOperand] at h
  cases hsource : a.source with
  | literal =>
      rw [hsource] at h
      obtain rfl := Except.ok.inj h
      split
      · rfl
      · exact roles_cons_of_none (role?_loadImm _ _ _) _
  | forwarded index =>
      rw [hsource] at h
      obtain ⟨d, -, rfl⟩ := map_eq_ok.mp h
      rfl
  | scratch index =>
      rw [hsource] at h
      obtain ⟨d, -, rfl⟩ := map_eq_ok.mp h
      rfl

theorem roles_pushes {frame : Frame} {ops : List Operand} {pushes : List (List Instr)}
    (h : List.Forall₂ (fun a is => pushOperand frame a = .ok is) ops pushes) :
    roles pushes.flatten = List.replicate ops.length .push := by
  induction h with
  | nil => rfl
  | cons hpush _ ih =>
      rw [List.flatten_cons, roles_append, roles_pushOperand hpush, ih, List.length_cons,
        List.replicate_succ, List.singleton_append]

/-- The load of an argument has no role. -/
theorem role?_loadOperand {frame : Frame} {dst : Reg} {a : Operand} {line : Line}
    (h : loadOperand frame dst a = .ok line) : line.toInstr.role? = none := by
  unfold loadOperand at h
  split at h
  · obtain rfl := Except.ok.inj h
    rfl
  · obtain rfl := Except.ok.inj h
    exact role?_loadImm _ _ _
  · obtain ⟨d, -, rfl⟩ := map_eq_ok.mp h
    rfl
  · obtain ⟨d, -, rfl⟩ := map_eq_ok.mp h
    cases a.type <;> rfl
  · obtain ⟨d, -, rfl⟩ := map_eq_ok.mp h
    rfl
  · cases h

theorem roles_loads {frame : Frame} {xs : List (Reg × Operand)} {loads : List Line}
    (h : List.Forall₂ (fun x line => loadOperand frame x.1 x.2 = .ok line) xs loads) :
    roles (loads.map Line.toInstr) = [] := by
  induction h with
  | nil => rfl
  | cons hload _ ih => rw [List.map_cons, roles_cons_of_none (role?_loadOperand hload), ih]

/-- A call pushes its stack arguments and calls, and that is all. -/
theorem roles_callLines {abi : Abi} {frame : Frame} {site : CallSite} {lines : List Line}
    (h : callLines abi frame site = .ok lines) :
    roles (lines.map Line.toInstr)
      = List.replicate (abi.stacked site.types) .push ++ [.call .r11] := by
  obtain ⟨pushes, loads, hpushes, hloads, rfl⟩ := callLines_eq_ok.mp h
  have hinstrs : ∀ is : List Instr, (is.map Line.instr).map Line.toInstr = is := by
    intro is
    rw [List.map_map]
    exact List.map_id is
  have hstack : roles pushes.flatten = List.replicate (abi.stacked site.types) .push := by
    rw [roles_pushes hpushes, List.length_reverse]
    exact congrArg (List.replicate · _) (abi.length_stackOperands site.args)
  have htarget : roles [Instr.loadImm .w64 .r11 site.callee] = [] :=
    roles_cons_of_none (role?_loadImm _ _ _) []
  have hcall : ∀ is, roles (Instr.call .r11 :: is) = .call .r11 :: roles is := fun _ => rfl
  simp only [List.map_append, hinstrs, roles_append, roles_adjustStack, roles_countVectors,
    roles_loads hloads, hstack, htarget, hcall, List.nil_append, List.append_nil]

end Amd64

/-! ### Calls -/

/-- How many arguments of a call are not floating. -/
def CallSite.ints (site : CallSite) : Nat := site.args.countP fun a => !a.isFloat

/-- How many arguments of a call are floating. -/
def CallSite.floats (site : CallSite) : Nat := site.args.countP fun a => a.isFloat

theorem CallSite.floatsIn_types (site : CallSite) : Budget.floatsIn site.types = site.floats := by
  rw [Budget.floatsIn, types, List.countP_map]
  rfl

theorem CallSite.intsIn_types (site : CallSite) :
    Budget.intsIn (fun _ => true) site.types = site.ints := by
  rw [Budget.intsIn, types, List.countP_map]
  simp only [Bool.and_true]
  rfl

theorem CallSite.ints_add_floats (site : CallSite) :
    site.ints + site.floats = site.args.length := by
  rw [List.length_eq_countP_add_countP (fun a : Operand => a.isFloat), Nat.add_comm, ints, floats]
  simp

namespace Amd64

/-- **The pushes of a call are counted by the classes of its arguments.**  A near call with
arguments of the frame is written.  Its bytes are instructions that push as often as there are
arguments beyond the registers, then call through `r11` once, and pop nothing and leave the line
nowhere else.  So a call whose arguments all have registers pushes nothing. -/
theorem pushes_of_call {e : Encoder} {abi : Abi} (htarget : e.target.abi? = some abi)
    {frame : Frame} {site : CallSite} (hnear : site.far = false)
    (hvalid : ∀ a ∈ site.args, a.ValidIn frame) :
    ∃ out is n, e.call frame site = .ok (.ok out) ∧
      decodeAll out.fragment.code = some is ∧
      roles is = List.replicate n .push ++ [.call .r11] ∧
      (e.target = .systemV → n = (site.ints - 6) + (site.floats - 8)) ∧
      (e.target = .microsoft → n = site.ints + site.floats - 4) ∧
      (e.target = .systemV → site.ints ≤ 6 → site.floats ≤ 8 → roles is = [.call .r11]) ∧
      (e.target = .microsoft → site.ints + site.floats ≤ 4 → roles is = [.call .r11]) := by
  obtain ⟨lines, hlines⟩ := exists_callLines (Abi.lawful_of_target htarget) hvalid
  have hfragment : e.target.callFragment frame site = .ok (draft lines) := by
    rw [callFragment_of_abi htarget]
    exact callFragment_eq_ok.mpr ⟨lines, hlines, rfl⟩
  have hcall : e.call frame site = .ok (.ok ⟨{ e with calls := e.calls + 1 }, draft lines,
      e.target.callEvents site (e.calls + 1)⟩) := by
    have hrefusal : e.target.refusal? site = none := by simp [Target.refusal?, hnear]
    rw [Encoder.call, hrefusal]
    show (e.target.callFragment frame site).map _ = _
    rw [hfragment]
    rfl
  have hdecode : decodeAll (draft lines).code = some (lines.map Line.toInstr) := by
    rw [code_draft]
    exact decodeAll_encodeAll _
  have hroles := roles_callLines hlines
  have hsystemV : e.target = .systemV →
      abi.stacked site.types = (site.ints - 6) + (site.floats - 8) := by
    intro he
    rw [he] at htarget
    obtain rfl := Option.some.inj htarget
    rw [Abi.stacked_systemV, CallSite.intsIn_types, CallSite.floatsIn_types]
  have hmicrosoft : e.target = .microsoft →
      abi.stacked site.types = site.ints + site.floats - 4 := by
    intro he
    rw [he] at htarget
    obtain rfl := Option.some.inj htarget
    rw [Abi.stacked_microsoft, CallSite.length_types, CallSite.ints_add_floats]
  have hnone : abi.stacked site.types = 0 → roles (lines.map Line.toInstr) = [.call .r11] := by
    intro hzero
    rw [hroles, hzero]
    rfl
  refine ⟨_, _, _, hcall, hdecode, hroles, hsystemV, hmicrosoft, ?_, ?_⟩
  · intro he hints hfloats
    exact hnone (by rw [hsystemV he]; omega)
  · intro he hle
    exact hnone (by rw [hmicrosoft he]; omega)

/-- Seven arguments that are not floating and one that is: one more than System V has registers
for, and four more than Microsoft. -/
theorem pushes_of_call_eight :
    let site : CallSite := ⟨[.literal .qword 0x5050505050505050, .forwarded .byte 0, .scratch 0,
      .literal .double 0x6868686868686868, .literal .dword 4, .literal .qword 5,
      .literal .word 6, .literal .pointer 0xFFFFFFFF80000000], 0x50, .cdecl, false⟩
    let frame : Frame := ⟨[⟨.qword, 8⟩], [⟨24, 32⟩], 8, 24⟩
    Frame.layout [.qword] [24] = .ok frame ∧
      (∃ out is, Encoder.call ⟨.systemV, 0⟩ frame site = .ok (.ok out) ∧
        decodeAll out.fragment.code = some is ∧ roles is = [.push, .call .r11]) ∧
      ∃ out is, Encoder.call ⟨.microsoft, 0⟩ frame site = .ok (.ok out) ∧
        decodeAll out.fragment.code = some is ∧
        roles is = [.push, .push, .push, .push, .call .r11] := by
  intro site frame
  have hvalid : ∀ a ∈ site.args, a.ValidIn frame := by decide
  refine ⟨by decide, ?_, ?_⟩
  · obtain ⟨out, is, n, hcall, hdecode, hroles, hn, -⟩ :=
      @pushes_of_call ⟨.systemV, 0⟩ .systemV rfl frame site rfl hvalid
    obtain rfl : n = 1 := hn rfl
    exact ⟨out, is, hcall, hdecode, hroles⟩
  · obtain ⟨out, is, n, hcall, hdecode, hroles, -, hn, -⟩ :=
      @pushes_of_call ⟨.microsoft, 0⟩ .microsoft rfl frame site rfl hvalid
    obtain rfl : n = 4 := hn rfl
    exact ⟨out, is, hcall, hdecode, hroles⟩

end Amd64

end Trampoline
