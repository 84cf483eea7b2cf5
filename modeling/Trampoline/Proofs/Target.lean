/-
Trampoline/Proofs/Target.lean

What holds of the code of every target, whichever its instruction set.

A call whose arguments refer to what the frame has can be written, and the
fragment it gives is closed: each literal it waits for has its field inside an
instruction of the fragment.  A prologue is never empty, so a trampoline that was
opened always has code.
-/
import Mathlib
import Trampoline.Proofs.Amd64.Call

namespace Trampoline

/-! ### Calls on IA-32 -/

namespace Ia32

variable {frame : Frame} {a : Operand}

theorem exists_pushOperand (h : a.ValidIn frame) : ∃ is, pushOperand frame a = .ok is := by
  rw [pushOperand]
  cases hsource : a.source with
  | literal => exact ⟨_, rfl⟩
  | forwarded index =>
      obtain ⟨d, hd⟩ := h.homeOffset hsource
      exact ⟨_, map_eq_ok.mpr ⟨d, hd, rfl⟩⟩
  | scratch index =>
      obtain ⟨-, d, hd⟩ := h.scratchOffset hsource
      exact ⟨_, map_eq_ok.mpr ⟨d, hd, rfl⟩⟩

theorem exists_loadOperand (dst : Gpr) (h : a.ValidIn frame) :
    ∃ i, loadOperand frame dst a = .ok i := by
  rw [loadOperand]
  cases hsource : a.source with
  | literal => exact ⟨_, rfl⟩
  | forwarded index =>
      obtain ⟨d, hd⟩ := h.homeOffset hsource
      exact ⟨_, map_eq_ok.mpr ⟨d, hd, rfl⟩⟩
  | scratch index =>
      obtain ⟨-, d, hd⟩ := h.scratchOffset hsource
      exact ⟨_, map_eq_ok.mpr ⟨d, hd, rfl⟩⟩

/-- The code of a call with arguments of the frame can be written. -/
theorem exists_callInstrs {site : CallSite} (h : ∀ a ∈ site.args, a.ValidIn frame) :
    ∃ is, callInstrs frame site = .ok is := by
  let plan := classify site.convention site.types
  have hpushes : ∀ a ∈ plan.stackOperandsRev site.args, ∃ is, pushOperand frame a = .ok is := by
    intro a ha
    rw [Plan.stackOperandsRev_eq] at ha
    exact exists_pushOperand (h a (Plan.mem_of_mem_stackOperands (List.mem_reverse.mp ha)))
  have hloads : ∀ x ∈ plan.registerOperands site.args,
      ∃ i, loadOperand frame x.2.1 x.2.2 = .ok i := by
    intro x hx
    have hx' : x.2 ∈ plan.registerLoads site.args := by
      rw [← Plan.registerOperands_map]
      exact List.mem_map_of_mem hx
    obtain ⟨i, hi, -⟩ := Plan.exists_of_mem_registerLoads hx'
    exact exists_loadOperand x.2.1 (h x.2.2 (List.mem_of_getElem? hi))
  obtain ⟨pushes, hp⟩ := exists_mapM_eq_ok hpushes
  obtain ⟨loads, hl⟩ := exists_mapM_eq_ok hloads
  exact ⟨_, bind_eq_ok.mpr ⟨pushes, hp, bind_eq_ok.mpr ⟨loads, hl, rfl⟩⟩⟩

end Ia32

/-! ### Calls on any target -/

namespace Target

/-- A call with arguments of the frame can be written on every target. -/
theorem exists_callFragment (t : Target) {frame : Frame} {site : CallSite}
    (h : ∀ a ∈ site.args, a.ValidIn frame) : ∃ f, t.callFragment frame site = .ok f := by
  rw [callFragment]
  cases habi : t.abi? with
  | some abi =>
      obtain ⟨lines, hlines⟩ := Amd64.exists_callLines (Amd64.Abi.lawful_of_target habi) h
      exact ⟨_, Amd64.callFragment_eq_ok.mpr ⟨lines, hlines, rfl⟩⟩
  | none =>
      obtain ⟨is, his⟩ := Ia32.exists_callInstrs h
      exact ⟨_, map_eq_ok.mpr ⟨is, his, rfl⟩⟩

theorem closed_callFragment {t : Target} {frame : Frame} {site : CallSite} {f : Fragment}
    (h : t.callFragment frame site = .ok f) : f.Closed := by
  rw [callFragment] at h
  cases habi : t.abi? with
  | some abi =>
      rw [habi] at h
      obtain ⟨lines, -, rfl⟩ := Amd64.callFragment_eq_ok.mp h
      exact Amd64.closed_draft lines
  | none =>
      rw [habi] at h
      obtain ⟨is, -, rfl⟩ := map_eq_ok.mp h
      exact Fragment.closed_of_literals_eq_nil rfl

theorem prologueCode_ne_nil (t : Target) (frame : Frame) : t.prologueCode frame ≠ [] := by
  rw [prologueCode]
  -- it starts by saving the frame pointer
  cases t.abi? with
  | some abi =>
      intro h
      cases h
  | none =>
      intro h
      cases h

end Target

end Trampoline
