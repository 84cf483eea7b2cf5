/-
Trampoline/Proofs/Builder/Reuse.lean

A builder that was used before cannot be told from a fresh one.

`Builder.reset` keeps the encoder, and an encoder remembers how many calls it has
written, so the builder after a reset is in general not the one that
`Builder.create` gives.  The count shows in the log records of calls.  But calls
are written only while a trampoline is open, and opening one sets the count to
zero.  `Alike` is the relation that holds between two builders for as long as
nothing tells them apart: they are equal, but for the count of calls of an idle
builder.  One operation preserves it and answers the same on both sides
(`Alike.apply`), and what is seen of a whole run follows by induction.

Two runs of the same operations have the same answers from the kernel too.  Where
the kernel puts pages elsewhere the second time, the addresses of programs differ
and nothing else does (`Elsewhere.observe`).
-/
import Mathlib
import Trampoline.Proofs.Builder.Invariant

namespace Trampoline

/-! ### Pages at address zero -/

/-- The same program with its pages at address zero. -/
def Program.atZero (p : Program) : Program := { p with mapping := { p.mapping with base := 0 } }

/-- The same event with the pages at address zero. -/
def MemoryEvent.atZero : MemoryEvent → MemoryEvent
  | mapped size _ bytes => mapped size 0 bytes
  | placed bytes _ capacity => placed bytes 0 capacity

/-- The same record with all pages at address zero. -/
def Record.atZero : Record → Record
  | event e => event e
  | memory e => memory e.atZero

namespace Builder

/-! ### What is seen of a run -/

/-- What a caller sees of one operation: the answer, the log records, and what the builder shows
of itself afterwards. -/
structure Observation where
  answer : Except Error Reply
  log : List Record
  name : String
  assembly : Code
  pending : List Operand
  params : List ValueType

/-- What a caller sees of a step. -/
def Observation.ofStep (s : Step Reply) : Observation where
  answer := s.answer
  log := s.log
  name := s.builder.name
  assembly := s.builder.assembly
  pending := s.builder.pending
  params := s.builder.params

/-- What a caller sees of a run, operation by operation, with the fault that breaks it off. -/
def observe (b : Builder) : List Operation → List Observation × Option Fault
  | [] => ([], none)
  | op :: ops =>
      match b.apply op with
      | .error fault => ([], some fault)
      | .ok s => (.ofStep s :: (s.builder.observe ops).1, (s.builder.observe ops).2)

variable {b c : Builder}

theorem observe_cons_of_ok {op : Operation} {s : Step Reply} (h : b.apply op = .ok s)
    (ops : List Operation) :
    b.observe (op :: ops) = (.ofStep s :: (s.builder.observe ops).1, (s.builder.observe ops).2) := by
  rw [observe, h]

theorem observe_cons_of_error {op : Operation} {fault : Fault} (h : b.apply op = .error fault)
    (ops : List Operation) : b.observe (op :: ops) = ([], some fault) := by
  rw [observe, h]

/-! ### The count of calls -/

/-- The same builder with another count of calls. -/
def recount (calls : Nat) (b : Builder) : Builder :=
  { b with encoder := { b.encoder with calls := calls } }

/-- The same step with another count of calls in the builder that it leaves. -/
def Step.recount {α : Type} (calls : Nat) (s : Step α) : Step α :=
  { s with builder := s.builder.recount calls }

theorem push_recount (calls : Nat) (a : Operand) :
    (b.recount calls).push a = Step.recount calls (b.push a) := by
  by_cases h : b.phase = .building <;> simp [push, recount, Step.recount, refuse, h]

theorem declareParameters_recount (calls : Nat) (types : List ValueType) :
    (b.recount calls).declareParameters types
      = Step.recount calls (b.declareParameters types) := by
  by_cases h : b.phase = .idle <;> by_cases hmany : Frame.maxParameters < types.length <;>
    simp [declareParameters, recount, Step.recount, refuse, h, hmany]

theorem declareScratch_recount (calls : Nat) (size : UInt32) :
    (b.recount calls).declareScratch size = Step.recount calls (b.declareScratch size) := by
  by_cases h : b.phase = .idle <;> by_cases hmany : maxScratch ≤ b.scratch.length <;>
    simp [declareScratch, recount, Step.recount, refuse, h, hmany]

theorem pushForwarded_recount (calls : Nat) (index : UInt8) :
    (b.recount calls).pushForwarded index = Step.recount calls (b.pushForwarded index) := by
  have hparams : (b.recount calls).params = b.params := rfl
  rw [pushForwarded, pushForwarded, hparams]
  cases b.params[index.toNat]? with
  | none => rfl
  | some type => exact push_recount calls _

theorem pushScratch_recount (calls : Nat) (index : UInt8) :
    (b.recount calls).pushScratch index = Step.recount calls (b.pushScratch index) := by
  have hscratch : (b.recount calls).scratch = b.scratch := rfl
  rw [pushScratch, pushScratch, hscratch, push_recount]
  split
  · rfl
  · rfl

theorem flush_recount (calls : Nat) (kernel : Kernel) :
    (b.recount calls).flush kernel = Step.recount calls (b.flush kernel) := by
  by_cases hcode : b.assembly = []
  · rw [flush, flush, if_pos hcode, if_pos (show (b.recount calls).assembly = [] from hcode)]
    rfl
  by_cases hphase : b.phase = .building
  · rw [flush, flush, if_neg hcode, if_neg (show (b.recount calls).assembly ≠ [] from hcode),
      if_pos hphase, if_pos (show (b.recount calls).phase = .building from hphase)]
    rfl
  rcases hacquired : Program.acquire .writeThenExecute kernel b.assembly with ⟨error | p, events⟩
  · rw [flush_of_error hcode hphase hacquired,
      flush_of_error (b := b.recount calls) hcode hphase hacquired]
    rfl
  · rw [flush_of_ok hcode hphase hacquired,
      flush_of_ok (b := b.recount calls) hcode hphase hacquired]
    rfl

/-- An idle builder reads its count of calls in no operation, and only opening a trampoline
changes it. -/
theorem apply_recount (hidle : b.phase = .idle) (calls : Nat) {op : Operation} (hop : op ≠ .start) :
    (b.recount calls).apply op = (b.apply op).map (Step.recount calls) := by
  have hidle' : (b.recount calls).phase = .idle := hidle
  cases op with
  | declareParameters types =>
      rw [apply, declareParameters_recount]
      rfl
  | declareScratch size =>
      rw [apply, declareScratch_recount]
      rfl
  | start => exact absurd rfl hop
  | pushLiteral l =>
      rw [apply, pushLiteral, push_recount]
      rfl
  | pushForwarded index =>
      rw [apply, pushForwarded_recount]
      rfl
  | pushScratch index =>
      rw [apply, pushScratch_recount]
      rfl
  | call callee convention far =>
      rw [apply, apply, call, call, if_pos (by simp [hidle']), if_pos (by simp [hidle])]
      rfl
  | finish =>
      rw [apply, apply, finish, finish, if_pos (by simp [hidle']), if_pos (by simp [hidle])]
      rfl
  | flush kernel =>
      rw [apply, flush_recount]
      rfl
  | reset => rfl

/-- Opening a trampoline starts a new count, so nothing is left of the one before. -/
theorem start_recount (hidle : b.phase = .idle) (calls : Nat) :
    (b.recount calls).start = b.start ∨
      (b.recount calls).start = Step.recount calls b.start ∧ b.start.builder = b := by
  have hidle' : (b.recount calls).phase = .idle := hidle
  have hlayout : Frame.layout (b.recount calls).params (b.recount calls).scratch
      = Frame.layout b.params b.scratch := rfl
  rw [start, start, hidle, hidle', hlayout]
  cases Frame.layout b.params b.scratch with
  | error e => exact .inr ⟨rfl, rfl⟩
  | ok frame => exact .inl rfl

/-! ### Builders that are alike -/

/-- Whether two builders are equal, but for the count of calls of an idle builder. -/
def Alike (b c : Builder) : Prop := c = b ∨ b.phase = .idle ∧ ∃ calls, c = b.recount calls

/-- Only opening a trampoline ends the declarations. -/
theorem Performs.idle {op : Operation} {answer : Except Error Reply}
    (hp : b.Performs op answer c) (hidle : b.phase = .idle) (hop : op ≠ .start) :
    c.phase = .idle := by
  cases hp with
  | refused _ => exact hidle
  | discarded _ => exact hidle
  | parameters _ _ => exact hidle
  | scratch _ _ => exact hidle
  | opened _ _ _ => exact absurd rfl hop
  | pushed _ _ _ => exact hidle
  | called _ _ _ _ => exact hidle
  | closed building _ _ =>
      rw [hidle] at building
      cases building
  | empty _ => exact hidle
  | flushed _ _ _ => rfl
  | reset => rfl

/-- Builders that are alike answer an operation alike, break off alike, and stay alike. -/
theorem Alike.apply (h : b.Alike c) (op : Operation) :
    (∃ fault, b.apply op = .error fault ∧ c.apply op = .error fault) ∨
      ∃ s s', b.apply op = .ok s ∧ c.apply op = .ok s' ∧ s'.answer = s.answer ∧
        s'.log = s.log ∧ s.builder.Alike s'.builder := by
  rcases h with rfl | ⟨hidle, calls, rfl⟩
  · cases happly : c.apply op with
    | error fault => exact .inl ⟨fault, rfl, rfl⟩
    | ok s => exact .inr ⟨s, s, rfl, rfl, rfl, rfl, .inl rfl⟩
  by_cases hop : op = .start
  · obtain rfl := hop
    refine .inr ⟨_, _, rfl, rfl, ?_⟩
    rcases start_recount hidle calls with heq | ⟨heq, hsame⟩
    · rw [heq]
      exact ⟨rfl, rfl, .inl rfl⟩
    · rw [heq]
      refine ⟨rfl, rfl, .inr ⟨?_, calls, rfl⟩⟩
      show b.start.builder.phase = .idle
      rw [hsame, hidle]
  · have heq := apply_recount hidle calls hop
    cases happly : b.apply op with
    | error fault =>
        rw [happly] at heq
        exact .inl ⟨fault, rfl, heq⟩
    | ok s =>
        rw [happly] at heq
        have hstays := (performs_of_apply happly).idle hidle hop
        exact .inr ⟨s, _, rfl, heq, rfl, rfl, .inr ⟨hstays, calls, rfl⟩⟩

/-- What a caller sees of builders that are alike is equal. -/
theorem Alike.ofStep {s s' : Step Reply} (hanswer : s'.answer = s.answer)
    (hlog : s'.log = s.log) (h : s.builder.Alike s'.builder) :
    Observation.ofStep s' = Observation.ofStep s := by
  rw [Observation.ofStep, Observation.ofStep, hanswer, hlog]
  rcases h with heq | ⟨-, calls, heq⟩
  · rw [heq]
  · rw [heq]
    rfl

/-- No run tells builders that are alike apart. -/
theorem Alike.observe (h : b.Alike c) (ops : List Operation) : c.observe ops = b.observe ops := by
  induction ops generalizing b c with
  | nil => rfl
  | cons op ops ih =>
      rcases h.apply op with ⟨fault, hb, hc⟩ | ⟨s, s', hb, hc, hanswer, hlog, hnext⟩
      · rw [observe_cons_of_error hb, observe_cons_of_error hc]
      · rw [observe_cons_of_ok hb, observe_cons_of_ok hc, ih hnext,
          Alike.ofStep hanswer hlog hnext]

/-! ### Pages elsewhere -/

/-- The same reply with all pages at address zero. -/
def Reply.atZero : Reply → Reply
  | program p => program (p.map Program.atZero)
  | r => r

/-- The same observation with all pages at address zero. -/
def Observation.atZero (o : Observation) : Observation :=
  { o with answer := o.answer.map Reply.atZero, log := o.log.map Record.atZero }

/-- What a caller sees of a run, with all pages at address zero. -/
def observeAtZero (b : Builder) (ops : List Operation) : List Observation × Option Fault :=
  ((b.observe ops).1.map Observation.atZero, (b.observe ops).2)

/-- Whether two operations are the same, but for the address of the pages that the kernel grants. -/
inductive Elsewhere : Operation → Operation → Prop
  | same (op : Operation) : Elsewhere op op
  | flush {page : UInt64} {execution : Answer Unit} (base base' : UInt64) :
      Elsewhere (.flush ⟨page, .granted base, execution⟩) (.flush ⟨page, .granted base', execution⟩)

/-- Where pages are makes no difference to the builder, nor to what a caller sees but for the
addresses. -/
theorem Elsewhere.apply {op op' : Operation} (h : Elsewhere op op') (b : Builder) :
    (∃ fault, b.apply op = .error fault ∧ b.apply op' = .error fault) ∨
      ∃ s s', b.apply op = .ok s ∧ b.apply op' = .ok s' ∧ s'.builder = s.builder ∧
        (Observation.ofStep s').atZero = (Observation.ofStep s).atZero := by
  cases h with
  | same =>
      cases happly : b.apply op with
      | error fault => exact .inl ⟨fault, rfl, rfl⟩
      | ok s => exact .inr ⟨s, s, rfl, rfl, rfl, rfl⟩
  | @flush page execution base base' =>
      refine .inr ⟨_, _, rfl, rfl, ?_⟩
      rw [Builder.flush, Builder.flush]
      split
      · exact ⟨rfl, rfl⟩
      · split
        · exact ⟨rfl, rfl⟩
        · cases execution with
          | granted => exact ⟨rfl, rfl⟩
          | refused cause => exact ⟨rfl, rfl⟩

/-- No run tells where pages are, but by their addresses. -/
theorem Elsewhere.observe {ops ops' : List Operation} (h : List.Forall₂ Elsewhere ops ops')
    (b : Builder) : b.observeAtZero ops' = b.observeAtZero ops := by
  induction h generalizing b with
  | nil => rfl
  | @cons op op' ops ops' hop _ ih =>
      rcases hop.apply b with ⟨fault, h, h'⟩ | ⟨s, s', h, h', hbuilder, hseen⟩
      · rw [observeAtZero, observeAtZero, observe_cons_of_error h, observe_cons_of_error h']
      · have hrest := ih s.builder
        rw [observeAtZero, observeAtZero, Prod.mk.injEq] at hrest
        rw [observeAtZero, observeAtZero, observe_cons_of_ok h, observe_cons_of_ok h', hbuilder,
          List.map_cons, List.map_cons, hseen, hrest.1, hrest.2]

/-! ### Starting over -/

/-- An operation that hands out a program starts over. -/
theorem builder_of_program {op : Operation} {s : Step Reply} {p : Program}
    (h : b.apply op = .ok s) (hanswer : s.answer = .ok (.program (some p))) :
    s.builder = b.reset := by
  have hp := performs_of_apply h
  rw [hanswer] at hp
  generalize s.builder = last at hp
  cases hp with
  | flushed _ _ _ => rfl

/-- After a reset, or a flush that handed out a program, nothing that a caller can do shows that a
builder was used before, whatever was done with it: with the same answers from the kernel a fresh
builder gives the same answers, the same code and the same log, and with pages elsewhere it differs
in their addresses only. -/
theorem observe_eq_of_starts_over {e : Encoder} {ops : List Operation}
    (hrun : ({ encoder := e } : Builder).run ops = .ok b) {op : Operation} {s : Step Reply}
    (hlast : b.apply op = .ok s) (hover : op = .reset ∨ ∃ p, s.answer = .ok (.program (some p)))
    (later : List Operation) :
    s.builder.observe later = ({ encoder := e } : Builder).observe later ∧
      ∀ elsewhere, List.Forall₂ Elsewhere later elsewhere →
        s.builder.observeAtZero elsewhere = ({ encoder := e } : Builder).observeAtZero later := by
  have hreset : s.builder = b.reset := by
    rcases hover with rfl | ⟨p, hp⟩
    · obtain rfl := Except.ok.inj hlast
      rfl
    · exact builder_of_program hlast hp
  -- what is left of the run is the encoder, and its target is the one it had
  have halike : ({ encoder := e } : Builder).Alike b.reset := by
    have htarget : b.encoder.target = e.target := target_of_run hrun
    refine .inr ⟨rfl, b.encoder.calls, ?_⟩
    show ({ encoder := b.encoder } : Builder) = { encoder := ⟨e.target, b.encoder.calls⟩ }
    rw [← htarget]
  rw [hreset]
  refine ⟨halike.observe later, ?_⟩
  intro elsewhere h
  rw [Elsewhere.observe h, observeAtZero, observeAtZero, halike.observe]

/-- A trampoline that is thrown away after a call, with an argument and a literal that wait.  The
builder after it is not the fresh one. -/
theorem observe_eq_after_abandoned :
    ∃ b s, (create .systemV).run [.declareParameters [.double], .declareScratch 16, .start,
        .pushLiteral (.double 0x3FF0000000000000), .call 0x1000 .cdecl false,
        .pushForwarded 0] = .ok b ∧
      (b.pending.length = 1 ∧ b.draft.literals.length = 1 ∧ b.reset ≠ create .systemV) ∧
      b.apply .reset = .ok s ∧
      (∀ later, s.builder.observe later = (create .systemV).observe later) ∧
      s.builder.observeAtZero [.start, .finish, .flush { pages := .granted 0x2000 }]
        = (create .systemV).observeAtZero
          [.start, .finish, .flush { pages := .granted 0x1000 }] := by
  have hcheck : ((create .systemV).run [.declareParameters [.double], .declareScratch 16, .start,
      .pushLiteral (.double 0x3FF0000000000000), .call 0x1000 .cdecl false,
      .pushForwarded 0]).map (fun b => decide (b.pending.length = 1 ∧
        b.draft.literals.length = 1 ∧ b.reset ≠ create .systemV)) = .ok true := by
    decide +kernel
  obtain ⟨b, hrun, hb⟩ := map_eq_ok.mp hcheck
  have hlast : b.apply .reset = .ok ⟨.ok .done, b.reset, []⟩ := rfl
  have hover := observe_eq_of_starts_over hrun hlast (.inl rfl)
  exact ⟨b, _, hrun, of_decide_eq_true hb, hlast, fun later => (hover later).1,
    (hover _).2 _ (.cons (.same _) (.cons (.same _) (.cons (.flush 0x1000 0x2000) .nil)))⟩

end Builder

end Trampoline
