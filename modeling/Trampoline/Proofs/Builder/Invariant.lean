/-
Trampoline/Proofs/Builder/Invariant.lean

The invariant of a builder, and that no operation breaks off.

The guards against a fault are spread out: an argument is checked against the
declarations when it is pushed, the declarations are frozen while a trampoline is
open, and the code of a call looks the argument up in the frame.  `WellFormed`
links them.  Every operation preserves it, the refused ones included, and a
well-formed builder has an answer to every operation, as long as the code that a
trampoline ends with stays below 2^31 bytes.
-/
import Mathlib
import Trampoline.Proofs.Builder.Steps
import Trampoline.Proofs.Target

namespace Trampoline

/-- What is declared can be found in the frame. -/
theorem Operand.Declared.validIn {params : List ValueType} {scratch : List UInt32} {frame : Frame}
    {a : Operand} (h : a.Declared params scratch) (hl : frame.Laid params scratch) :
    a.ValidIn frame := by
  rw [Declared] at h
  rw [ValidIn]
  cases hsource : a.source with
  | literal => trivial
  | forwarded index =>
      rw [hsource] at h
      obtain ⟨type, htype, -⟩ := h
      have hlt := (List.getElem?_eq_some_iff.mp htype).1
      rw [← hl.homes_length] at hlt
      exact Option.isSome_iff_exists.mpr ⟨_, List.getElem?_eq_getElem hlt⟩
  | scratch index =>
      rw [hsource] at h
      have hlt := h.1
      rw [← hl.scratch_length] at hlt
      exact ⟨Option.isSome_iff_exists.mpr ⟨_, List.getElem?_eq_getElem hlt⟩, h.2⟩

namespace Builder

/-! ### The invariant -/

/-- What holds of every builder that operations lead to. -/
structure WellFormed (b : Builder) : Prop where
  params_le : b.params.length ≤ Frame.maxParameters
  scratch_le : b.scratch.length ≤ maxScratch
  /-- Nothing is there before a trampoline is opened. -/
  idle : b.phase = .idle → b.draft = {} ∧ b.pending = [] ∧ b.frame = {}
  /-- An open or finished trampoline has code, and the frame is the one that is declared. -/
  opened : b.phase ≠ .idle → b.assembly ≠ [] ∧ Frame.layout b.params b.scratch = .ok b.frame
  /-- Arguments and literals wait only while a trampoline is open. -/
  waiting : b.pending ≠ [] ∨ b.draft.literals ≠ [] → b.phase = .building
  /-- Arguments that wait are declared. -/
  declared : ∀ a ∈ b.pending, a.Declared b.params b.scratch
  /-- Literals that wait have their fields inside instructions of the code. -/
  closed : b.draft.Closed

theorem wellFormed_fresh (e : Encoder) : WellFormed { encoder := e } where
  params_le := Nat.zero_le _
  scratch_le := Nat.zero_le _
  idle := fun _ => ⟨rfl, rfl, rfl⟩
  opened := fun h => absurd rfl h
  waiting := by
    rintro (h | h)
    · exact absurd rfl h
    · exact absurd rfl h
  declared := fun _ h => absurd h List.not_mem_nil
  closed := Fragment.closed_of_literals_eq_nil rfl

variable {b b' : Builder}

/-- Every operation preserves the invariant. -/
theorem WellFormed.step (hb : b.WellFormed) {op : Operation} {answer : Except Error Reply}
    (h : b.Performs op answer b') : b'.WellFormed := by
  cases h with
  | refused _ => exact hb
  | discarded _ =>
      refine ⟨hb.params_le, hb.scratch_le, ?_, hb.opened, ?_, ?_, hb.closed⟩
      · intro h
        exact ⟨(hb.idle h).1, rfl, (hb.idle h).2.2⟩
      · rintro (h | h)
        · exact absurd rfl h
        · exact hb.waiting (.inr h)
      · exact fun _ h => absurd h List.not_mem_nil
  | parameters hidle few =>
      obtain ⟨hdraft, hpending, hframe⟩ := hb.idle hidle
      refine ⟨few, hb.scratch_le, hb.idle, fun h => absurd hidle h, hb.waiting, ?_, hb.closed⟩
      intro a ha
      rw [hpending] at ha
      exact absurd ha List.not_mem_nil
  | scratch hidle few =>
      obtain ⟨hdraft, hpending, hframe⟩ := hb.idle hidle
      refine ⟨hb.params_le, ?_, hb.idle, fun h => absurd hidle h, hb.waiting, ?_, hb.closed⟩
      · rw [List.length_append]
        exact few
      · intro a ha
        rw [hpending] at ha
        exact absurd ha List.not_mem_nil
  | @opened frame e hidle layout target =>
      obtain ⟨hdraft, hpending, hframe⟩ := hb.idle hidle
      refine ⟨hb.params_le, hb.scratch_le, ?_, ?_, fun _ => rfl, hb.declared, ?_⟩
      · intro h
        cases h
      · intro _
        refine ⟨?_, layout⟩
        show (b.draft ++ ({ code := b.encoder.target.prologueCode frame } : Fragment)).code ≠ []
        rw [hdraft, Fragment.empty_append]
        exact b.encoder.target.prologueCode_ne_nil frame
      · exact hb.closed.append (Fragment.closed_of_literals_eq_nil rfl)
  | @pushed op a building argument declared =>
      refine ⟨hb.params_le, hb.scratch_le, ?_, hb.opened, fun _ => building, ?_, hb.closed⟩
      · intro h
        rw [show b.phase = .idle from h] at building
        cases building
      · intro x hx
        rcases List.mem_append.mp hx with hx | hx
        · exact hb.declared x hx
        · rw [List.mem_singleton.mp hx]
          exact declared
  | @called callee convention far fragment e building accepted written target =>
      have hne : b.phase ≠ .idle := by
        rw [building]
        decide
      refine ⟨hb.params_le, hb.scratch_le, fun h => absurd h hne, ?_, fun _ => building, ?_, ?_⟩
      · intro h
        refine ⟨?_, (hb.opened h).2⟩
        show (b.draft ++ fragment).code ≠ []
        rw [Fragment.code_append]
        exact List.append_ne_nil_of_left_ne_nil (hb.opened h).1 _
      · exact fun _ h => absurd h List.not_mem_nil
      · exact hb.closed.append (Target.closed_callFragment written)
  | @closed draft placed building consumed resolved =>
      have hne : b.phase ≠ .idle := by
        rw [building]
        decide
      obtain ⟨hliterals, hlength, -, -⟩ := Fragment.resolve_spec
        (hb.closed.append (Fragment.closed_of_literals_eq_nil rfl)) resolved
      have hcode : draft.code ≠ [] := by
        have hpos := List.length_pos_iff.mpr (hb.opened hne).1
        rw [Fragment.code_append, List.length_append] at hlength
        rw [← List.length_pos_iff, hlength]
        exact Nat.add_pos_left (Nat.add_pos_left hpos _) _
      refine ⟨hb.params_le, hb.scratch_le, ?_, fun _ => ⟨hcode, (hb.opened hne).2⟩, ?_,
        hb.declared, Fragment.closed_of_literals_eq_nil hliterals⟩
      · intro h
        cases h
      · rintro (h | h)
        · exact absurd consumed h
        · exact absurd hliterals h
  | empty _ => exact hb
  | flushed _ _ _ => exact wellFormed_fresh b.encoder
  | reset => exact wellFormed_fresh b.encoder

/-! ### No operation breaks off -/

/-- The bytes of the code that a trampoline has if it is finished now. -/
def finishedLength (b : Builder) : Nat :=
  b.assembly.length + (b.encoder.target.epilogueCode b.frame).length +
    (Fragment.literalBytes b.draft.literals).length

theorem exists_call (hb : b.WellFormed) (callee : UInt64) (convention : Convention) (far : Bool) :
    ∃ s, b.call callee convention far = .ok s := by
  rw [call]
  dsimp only
  split
  · exact ⟨_, rfl⟩
  · next hphase =>
    have hne : b.phase ≠ .idle := by
      rw [not_not.mp hphase]
      decide
    have hl := Frame.laid_of_layout (hb.opened hne).2
    -- what was declared when it was pushed is in the frame
    have hvalid : ∀ a ∈ b.pending, a.ValidIn b.frame :=
      fun a ha => (hb.declared a ha).validIn hl
    obtain ⟨fragment, hfragment⟩ := @Target.exists_callFragment b.encoder.target b.frame
      ⟨b.pending, callee, convention, far⟩ hvalid
    rw [Encoder.call]
    split
    · exact ⟨_, rfl⟩
    · rw [hfragment]
      exact ⟨_, rfl⟩

theorem exists_finish (hb : b.WellFormed)
    (hsize : b.phase = .building → b.pending = [] → b.finishedLength < 2 ^ 31) :
    ∃ s, b.finish = .ok s := by
  rw [finish]
  split
  · exact ⟨_, rfl⟩
  · next hphase =>
    split
    · exact ⟨_, rfl⟩
    · next hpending =>
      have hlt := hsize (not_not.mp hphase) (not_not.mp hpending)
      have hliterals : (b.draft ++ (b.encoder.epilogue b.frame).fragment).literals
          = b.draft.literals := List.append_nil _
      have hclosed : (b.draft ++ (b.encoder.epilogue b.frame).fragment).Closed :=
        hb.closed.append (Fragment.closed_of_literals_eq_nil rfl)
      obtain ⟨draft, placed, hresolve⟩ := Fragment.exists_resolve hclosed (by
          rw [hliterals, Fragment.code_append, List.length_append]
          exact hlt)
      exact ⟨_, map_eq_ok.mpr ⟨_, hresolve, rfl⟩⟩

/-- A well-formed builder has an answer to every operation. -/
theorem exists_apply (hb : b.WellFormed) {op : Operation}
    (hsize : op = .finish → b.phase = .building → b.pending = [] → b.finishedLength < 2 ^ 31) :
    ∃ s, b.apply op = .ok s := by
  cases op with
  | call callee convention far =>
      obtain ⟨s, hs⟩ := exists_call hb callee convention far
      exact ⟨_, map_eq_ok.mpr ⟨s, hs, rfl⟩⟩
  | finish =>
      obtain ⟨s, hs⟩ := exists_finish hb (hsize rfl)
      exact ⟨_, map_eq_ok.mpr ⟨s, hs, rfl⟩⟩
  | _ => exact ⟨_, rfl⟩

/-- Whether no trampoline of a run ends with 2^31 bytes of code or more. -/
def StaysSmall (b : Builder) (ops : List Operation) : Prop :=
  ∀ before b', before ++ [.finish] <+: ops → b.run before = .ok b' →
    b'.phase = .building → b'.pending = [] → b'.finishedLength < 2 ^ 31

theorem StaysSmall.tail {op : Operation} {ops : List Operation} (h : b.StaysSmall (op :: ops))
    {s : Step Reply} (hs : b.apply op = .ok s) : s.builder.StaysSmall ops := by
  intro before b' hpre hrun
  refine h (op :: before) b' ?_ ?_
  · exact (List.prefix_cons_inj op).mpr hpre
  · rw [run, hs]
    exact hrun

theorem StaysSmall.mono {ops ops' : List Operation} (h : b.StaysSmall ops)
    (hpre : ops' <+: ops) : b.StaysSmall ops' := by
  intro before b' hbefore
  exact h before b' (hbefore.trans hpre)

theorem staysSmall_cons {op : Operation} {ops : List Operation} :
    b.StaysSmall (op :: ops) ↔
      (op = .finish → b.phase = .building → b.pending = [] → b.finishedLength < 2 ^ 31) ∧
        ∀ s, b.apply op = .ok s → s.builder.StaysSmall ops := by
  constructor
  · intro h
    refine ⟨?_, fun s => h.tail⟩
    rintro rfl
    exact h [] b (List.prefix_append [_] ops) rfl
  · rintro ⟨hfirst, hrest⟩ before b' hpre hrun
    cases before with
    | nil =>
        obtain rfl := Except.ok.inj hrun
        obtain ⟨hop, -⟩ := List.cons_prefix_cons.mp hpre
        exact hfirst hop.symm
    | cons op' before =>
        obtain ⟨rfl, htail⟩ := List.cons_prefix_cons.mp hpre
        obtain ⟨s, hs, hrun⟩ := bind_eq_ok.mp hrun
        exact hrest s hs before b' htail hrun

instance decidableStaysSmall : (b : Builder) → (ops : List Operation) → Decidable (b.StaysSmall ops)
  | _, [] => isTrue fun before _ h => absurd h (by simp)
  | b, op :: ops =>
      match h : b.apply op with
      | .error _ => decidable_of_iff
          (op = .finish → b.phase = .building → b.pending = [] → b.finishedLength < 2 ^ 31)
          (by rw [staysSmall_cons, h]; simp)
      | .ok s =>
          have := decidableStaysSmall s.builder ops
          decidable_of_iff
            ((op = .finish → b.phase = .building → b.pending = [] → b.finishedLength < 2 ^ 31) ∧
              s.builder.StaysSmall ops)
            (by rw [staysSmall_cons, h]; simp)

/-- A run of a well-formed builder goes on to its end. -/
theorem exists_record (hb : b.WellFormed) {ops : List Operation} (hsmall : b.StaysSmall ops) :
    ∃ entries b', b.record ops = .ok (entries, b') := by
  induction ops generalizing b with
  | nil => exact ⟨[], b, rfl⟩
  | cons op ops ih =>
      obtain ⟨s, hs⟩ := exists_apply hb (staysSmall_cons.mp hsmall).1
      obtain ⟨later, b', hlater⟩ := ih (hb.step (performs_of_apply hs)) (hsmall.tail hs)
      exact ⟨_, b', record_cons_eq_ok.mpr ⟨s, later, hs, hlater, rfl⟩⟩

/-! ### A builder and its history -/

/-- Whether a history tells what a builder remembers. -/
structure Tracks (target : Target) (h : History) (b : Builder) : Prop where
  target_eq : b.encoder.target = target
  params_eq : h.params = b.params
  scratch_eq : h.scratch = b.scratch
  args_eq : h.args = b.pending
  idle : b.phase = .idle → h.opened = none ∧ h.sites = []
  opened : b.phase ≠ .idle → h.opened = some (b.params, b.scratch)

theorem tracks_fresh (e : Encoder) : Tracks e.target {} { encoder := e } :=
  ⟨rfl, rfl, rfl, rfl, fun _ => ⟨rfl, rfl⟩, fun h => absurd rfl h⟩

/-- Noting an operation and its answer keeps a history true. -/
theorem Tracks.step {target : Target} {h : History} (ht : Tracks target h b) (hb : b.WellFormed)
    {op : Operation} {answer : Except Error Reply} (hp : b.Performs op answer b') :
    Tracks target (h.note target.pointerSize ⟨op, answer⟩) b' := by
  obtain rfl := ht.target_eq
  cases hp with
  | refused keeps =>
      rw [History.note_refused keeps]
      exact ht
  | discarded discards =>
      rw [History.note_discarded discards]
      exact ⟨rfl, ht.params_eq, ht.scratch_eq, rfl, ht.idle, ht.opened⟩
  | parameters hidle few =>
      exact ⟨rfl, rfl, ht.scratch_eq, ht.args_eq, ht.idle, fun h => absurd hidle h⟩
  | @scratch size hidle few =>
      refine ⟨rfl, ht.params_eq, ?_, ht.args_eq, ht.idle, fun h => absurd hidle h⟩
      show h.scratch ++ [size] = b.scratch ++ [size]
      rw [ht.scratch_eq]
  | opened hidle layout target =>
      refine ⟨target, ht.params_eq, ht.scratch_eq, (hb.idle hidle).2.1.symm, ?_, ?_⟩
      · intro h
        cases h
      · intro _
        show some (h.params, h.scratch) = some (b.params, b.scratch)
        rw [ht.params_eq, ht.scratch_eq]
  | @pushed op a building argument declared =>
      rw [← ht.params_eq] at argument
      rw [History.note_of_argument argument]
      refine ⟨rfl, ht.params_eq, ht.scratch_eq, ?_, ht.idle, ht.opened⟩
      show h.args ++ [a] = b.pending ++ [a]
      rw [ht.args_eq]
  | called building accepted written target =>
      refine ⟨target, ht.params_eq, ht.scratch_eq, rfl, ?_, ht.opened⟩
      intro h
      rw [show b.phase = .idle from h] at building
      cases building
  | closed building consumed resolved =>
      refine ⟨rfl, ht.params_eq, ht.scratch_eq, ht.args_eq, ?_, ?_⟩
      · intro h
        cases h
      · intro _
        refine ht.opened ?_
        rw [building]
        decide
  | empty _ => exact ht
  | flushed _ _ _ => exact tracks_fresh b.encoder
  | reset => exact tracks_fresh b.encoder

theorem record_tracks {target : Target} {ops : List Operation} {entries : List Entry}
    (h : (create target).record ops = .ok (entries, b)) :
    b.WellFormed ∧ Tracks target (History.ofEntries target.pointerSize entries) b := by
  refine record_induction (I := fun h b => b.WellFormed ∧ Tracks target h b) ?_ h
    ⟨wellFormed_fresh _, tracks_fresh { target := target }⟩
  rintro h b op answer b' ⟨hb, ht⟩ hp
  exact ⟨hb.step hp, ht.step hb hp⟩

/-- The part of a run up to one of its operations. -/
theorem record_split {ops : List Operation} {before after : List Entry} {e : Entry}
    (h : b.record ops = .ok (before ++ e :: after, b')) :
    ∃ first mid s, b.record first = .ok (before, mid) ∧ mid.apply e.operation = .ok s ∧
      e.answer = s.answer := by
  induction before generalizing b ops with
  | nil =>
      cases ops with
      | nil => cases h
      | cons op ops =>
          obtain ⟨s, later, hs, -, heq⟩ := record_cons_eq_ok.mp h
          obtain ⟨rfl, -⟩ := List.cons.inj heq
          exact ⟨[], b, s, rfl, hs, rfl⟩
  | cons x before ih =>
      cases ops with
      | nil => cases h
      | cons op ops =>
          obtain ⟨s, later, hs, hlater, heq⟩ := record_cons_eq_ok.mp h
          obtain ⟨rfl, rfl⟩ := List.cons.inj heq
          obtain ⟨first, mid, s', hfirst, hs', he⟩ := ih hlater
          exact ⟨op :: first, mid, s', record_cons_eq_ok.mpr ⟨s, before, hs, hfirst, rfl⟩, hs', he⟩

/-- The index of a scratch buffer is the number of those declared before it. -/
theorem index_of_declareScratch {target : Target} {ops : List Operation}
    {before after : List Entry} {size : UInt32} {reply : Reply}
    (h : (create target).record ops = .ok (before ++ ⟨.declareScratch size, .ok reply⟩ :: after, b)) :
    ∃ i, reply = .index i ∧
      i.toNat = (History.ofEntries target.pointerSize before).scratch.length := by
  obtain ⟨first, mid, s, hfirst, hs, hanswer⟩ := record_split h
  obtain ⟨-, ht⟩ := record_tracks hfirst
  have hp := performs_of_apply hs
  rw [← hanswer] at hp
  generalize s.builder = last at hp
  cases hp with
  | scratch hidle few =>
      refine ⟨_, rfl, ?_⟩
      rw [ht.scratch_eq]
      exact UInt8.toNat_ofNat_of_lt' few
  | pushed building argument declared => cases argument

/-- No operation of a run breaks off, whatever the target and the operations, every builder on the
way is well-formed, and scratch buffers are numbered in the order of their declarations. -/
theorem run_wellFormed (target : Target) {ops : List Operation}
    (hsmall : (create target).StaysSmall ops) :
    ∃ entries last, (create target).record ops = .ok (entries, last) ∧
      (∀ before, before <+: ops → ∃ b, (create target).run before = .ok b ∧ b.WellFormed) ∧
      ∀ earlier size reply later, entries = earlier ++ ⟨.declareScratch size, .ok reply⟩ :: later →
        ∃ i, reply = .index i ∧
          i.toNat = (History.ofEntries target.pointerSize earlier).scratch.length := by
  have hfresh : (create target).WellFormed := wellFormed_fresh _
  obtain ⟨entries, last, hrun⟩ := exists_record hfresh hsmall
  refine ⟨entries, last, hrun, ?_, ?_⟩
  · intro before hbefore
    obtain ⟨es, b, hb⟩ := exists_record hfresh (hsmall.mono hbefore)
    refine ⟨b, ?_, (record_tracks hb).1⟩
    rw [run_eq_record, hb]
    rfl
  · rintro earlier size reply later rfl
    exact index_of_declareScratch hrun

/-- A run with refused operations, a trampoline that is finished at the second attempt and
declarations after it. -/
theorem run_wellFormed_two_attempts :
    let ops : List Operation := [
      .declareParameters [.double], .declareScratch 16, .start, .pushForwarded 3,
      .pushLiteral (.float 0x3F800000), .pushForwarded 0, .pushScratch 0, .declareScratch 8,
      .call 0x1000 .cdecl true, .pushLiteral (.double 5), .call 0x1000 .fastcall false,
      .pushLiteral (.byte 1), .finish, .finish, .flush, .declareScratch 32]
    (create .systemV).StaysSmall ops ∧
      ∃ entries last, (create .systemV).record ops = .ok (entries, last) ∧
        (∀ before, before <+: ops → ∃ b, (create .systemV).run before = .ok b ∧ b.WellFormed) ∧
        ∀ earlier size reply later,
          entries = earlier ++ ⟨.declareScratch size, .ok reply⟩ :: later →
            ∃ i, reply = .index i ∧
              i.toNat = (History.ofEntries Target.systemV.pointerSize earlier).scratch.length := by
  intro ops
  have hsmall : (create .systemV).StaysSmall ops := by decide +kernel
  exact ⟨hsmall, run_wellFormed .systemV hsmall⟩

end Builder

end Trampoline
