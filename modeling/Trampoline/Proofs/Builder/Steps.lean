/-
Trampoline/Proofs/Builder/Steps.lean

What one operation on a builder can do, and what is left of a whole run.

`Performs` lists the ways in which an operation answers and changes the builder,
with the guards that led there.  It is proved once from the definitions
(`performs_of_apply`), and what a run preserves is derived from it alone.

A `History` is what a run leaves to remember, read off the operations and their
answers only: the declarations in force, those in force when the trampoline was
opened, the arguments since the last call, and the calls.  Operations that were
refused leave no trace in it, but for the arguments that some refusals discard.
-/
import Mathlib
import Trampoline.Builder
import Trampoline.Proofs.Fragment

namespace Trampoline

/-! ### Arguments of a declaration -/

/-- Whether an argument is one that a caller can push while these parameters and scratch buffers
are declared: a literal no wider than its type, a declared parameter with its type, or the address
of a declared buffer. -/
def Operand.Declared (params : List ValueType) (scratch : List UInt32) (a : Operand) : Prop :=
  match a.source with
  | .literal => a.value.toNat < 256 ^ a.type.size
  | .forwarded index => ∃ type, params[index.toNat]? = some type ∧ a = .forwarded type index
  | .scratch index => index.toNat < scratch.length ∧ a = .scratch index

theorem Literal.declared (pointerSize : Nat) (l : Literal) (params : List ValueType)
    (scratch : List UInt32) : (l.operand pointerSize).Declared params scratch := by
  have hnative : ∀ v : UInt64, (Operand.native pointerSize v).Declared params scratch := by
    intro v
    rw [Operand.native]
    split
    · exact v.toUInt32.toNat_lt
    · exact v.toNat_lt
  cases l with
  | byte v => exact v.toNat_lt
  | word v => exact v.toNat_lt
  | dword v => exact v.toNat_lt
  | qword v => exact v.toNat_lt
  | pointer v => exact v.toNat_lt
  | native v => exact hnative v
  | signedNative v => exact hnative v.toUInt64
  | float bits => exact bits.toNat_lt
  | double bits => exact bits.toNat_lt

namespace Builder

/-! ### One operation -/

/-- The argument that an operation pushes, if it pushes one. -/
def Operation.argument? (pointerSize : Nat) (params : List ValueType) :
    Operation → Option Operand
  | pushLiteral l => some (l.operand pointerSize)
  | pushForwarded index => params[index.toNat]?.map (.forwarded · index)
  | pushScratch index => some (.scratch index)
  | _ => none

/-- Whether an operation that answers with an error has discarded the pending arguments. -/
def Operation.discards : Operation → Error → Bool
  | call _ _ _, _ => true
  | finish, .pendingArguments _ => true
  | _, _ => false

/-- The ways in which an operation can answer and change the builder. -/
inductive Performs (b : Builder) : Operation → Except Error Reply → Builder → Prop
  | refused {op : Operation} {error : Error} (keeps : op.discards error = false) :
      Performs b op (.error error) b
  | discarded {op : Operation} {error : Error} (discards : op.discards error = true) :
      Performs b op (.error error) { b with pending := [] }
  | parameters {types : List ValueType} (idle : b.phase = .idle)
      (few : types.length ≤ Frame.maxParameters) :
      Performs b (.declareParameters types) (.ok .done) { b with params := types }
  | scratch {size : UInt32} (idle : b.phase = .idle) (few : b.scratch.length < maxScratch) :
      Performs b (.declareScratch size) (.ok (.index (UInt8.ofNat b.scratch.length)))
        { b with scratch := b.scratch ++ [size] }
  | opened {frame : Frame} {e : Encoder} (idle : b.phase = .idle)
      (layout : Frame.layout b.params b.scratch = .ok frame)
      (target : e.target = b.encoder.target) :
      Performs b .start (.ok .done) { b with
        encoder := e
        draft := b.draft ++ { code := b.encoder.target.prologueCode frame }
        frame := frame
        phase := .building }
  | pushed {op : Operation} {a : Operand} (building : b.phase = .building)
      (argument : op.argument? b.encoder.target.pointerSize b.params = some a)
      (declared : a.Declared b.params b.scratch) :
      Performs b op (.ok .done) { b with pending := b.pending ++ [a] }
  | called {callee : UInt64} {convention : Convention} {far : Bool} {fragment : Fragment}
      {e : Encoder} (building : b.phase = .building)
      (accepted : b.encoder.target.refusal? ⟨b.pending, callee, convention, far⟩ = none)
      (written : b.encoder.target.callFragment b.frame ⟨b.pending, callee, convention, far⟩
        = .ok fragment)
      (target : e.target = b.encoder.target) :
      Performs b (.call callee convention far) (.ok .done)
        { b with encoder := e, draft := b.draft ++ fragment, pending := [] }
  | closed {draft : Fragment} {placed : List Resolved} (building : b.phase = .building)
      (consumed : b.pending = [])
      (resolved : (b.draft ++ ({ code := b.encoder.target.epilogueCode b.frame } : Fragment)).resolve
        = .ok (draft, placed)) :
      Performs b .finish (.ok .done) { b with draft := draft, phase := .finished }
  | empty {kernel : Kernel} (empty : b.assembly = []) :
      Performs b (.flush kernel) (.ok (.program none)) b
  | flushed {kernel : Kernel} {p : Program} (code : b.assembly ≠ []) (ended : b.phase ≠ .building)
      (acquired : (Program.acquire .writeThenExecute kernel b.assembly).result = .ok p) :
      Performs b (.flush kernel) (.ok (.program (some p))) b.reset
  | reset : Performs b .reset (.ok .done) b.reset

variable {b b' : Builder}

theorem performs_push {op : Operation} {a : Operand}
    (hop : op.argument? b.encoder.target.pointerSize b.params = some a)
    (hkeeps : op.discards .notBuilding = false) (ha : a.Declared b.params b.scratch) :
    b.Performs op ((b.push a).map fun _ => Reply.done).answer
      ((b.push a).map fun _ => Reply.done).builder := by
  rw [push]
  split
  · exact .refused hkeeps
  · next h => exact .pushed (not_not.mp h) hop ha

theorem performs_start :
    b.Performs .start (b.start.map fun _ => Reply.done).answer
      (b.start.map fun _ => Reply.done).builder := by
  rw [start]
  cases hphase : b.phase with
  | building => exact .refused rfl
  | finished => exact .refused rfl
  | idle =>
      cases hlayout : Frame.layout b.params b.scratch with
      | error e => exact .refused rfl
      | ok frame => exact .opened hphase hlayout rfl

theorem performs_call {callee : UInt64} {convention : Convention} {far : Bool} {s : Step Unit}
    (h : b.call callee convention far = .ok s) :
    b.Performs (.call callee convention far) (s.map fun _ => Reply.done).answer s.builder := by
  rw [call] at h
  dsimp only at h
  split at h
  · obtain rfl := Except.ok.inj h
    exact .discarded rfl
  · next hphase =>
    obtain ⟨answer, hcall, rfl⟩ := map_eq_ok.mp h
    rw [Encoder.call] at hcall
    split at hcall
    · obtain rfl := Except.ok.inj hcall
      exact .discarded rfl
    · next haccepted =>
      obtain ⟨fragment, hfragment, rfl⟩ := map_eq_ok.mp hcall
      exact .called (not_not.mp hphase) haccepted hfragment rfl

theorem performs_finish {s : Step Unit} (h : b.finish = .ok s) :
    b.Performs .finish (s.map fun _ => Reply.done).answer s.builder := by
  rw [finish] at h
  split at h
  · obtain rfl := Except.ok.inj h
    exact .refused rfl
  · next hphase =>
    split at h
    · obtain rfl := Except.ok.inj h
      exact .discarded rfl
    · next hpending =>
      obtain ⟨⟨draft, placed⟩, hresolve, rfl⟩ := map_eq_ok.mp h
      exact .closed (not_not.mp hphase) (not_not.mp hpending) hresolve

/-- Without memory a flush leaves everything as it was. -/
theorem flush_of_error {kernel : Kernel} {error : Error} {events : List MemoryEvent}
    (hcode : b.assembly ≠ []) (hphase : b.phase ≠ .building)
    (h : Program.acquire .writeThenExecute kernel b.assembly = ⟨.error error, events⟩) :
    b.flush kernel = ⟨.error error, b, events.map .memory⟩ := by
  rw [flush, if_neg hcode, if_neg hphase, h]

theorem flush_of_ok {kernel : Kernel} {p : Program} {events : List MemoryEvent}
    (hcode : b.assembly ≠ []) (hphase : b.phase ≠ .building)
    (h : Program.acquire .writeThenExecute kernel b.assembly = ⟨.ok p, events⟩) :
    b.flush kernel = ⟨.ok (some p), b.reset,
      events.map .memory ++ [.event (.flushed b.name p.length)]⟩ := by
  rw [flush, if_neg hcode, if_neg hphase, h]

theorem answer_flush {kernel : Kernel} (hcode : b.assembly ≠ []) (hphase : b.phase ≠ .building) :
    (b.flush kernel).answer
      = (Program.acquire .writeThenExecute kernel b.assembly).result.map some := by
  rcases hacquired : Program.acquire .writeThenExecute kernel b.assembly with ⟨error | p, events⟩
  · rw [flush_of_error hcode hphase hacquired]
    rfl
  · rw [flush_of_ok hcode hphase hacquired]
    rfl

theorem performs_flush (kernel : Kernel) :
    b.Performs (.flush kernel) ((b.flush kernel).map Reply.program).answer
      ((b.flush kernel).map Reply.program).builder := by
  by_cases hcode : b.assembly = []
  · rw [flush, if_pos hcode]
    exact .empty hcode
  by_cases hphase : b.phase = .building
  · rw [flush, if_neg hcode, if_pos hphase]
    exact .refused rfl
  rcases hacquired : Program.acquire .writeThenExecute kernel b.assembly with ⟨error | p, events⟩
  · rw [flush_of_error hcode hphase hacquired]
    exact .refused rfl
  · rw [flush_of_ok hcode hphase hacquired]
    exact .flushed hcode hphase (by rw [hacquired])

/-- An operation does one of the things that `Performs` lists. -/
theorem performs_of_apply {op : Operation} {s : Step Reply} (h : b.apply op = .ok s) :
    b.Performs op s.answer s.builder := by
  cases op with
  | declareParameters types =>
      obtain rfl := Except.ok.inj h
      rw [declareParameters]
      split
      · exact .refused rfl
      · next hphase =>
        split
        · exact .refused rfl
        · next hfew => exact .parameters (not_not.mp hphase) (Nat.le_of_not_lt hfew)
  | declareScratch size =>
      obtain rfl := Except.ok.inj h
      rw [declareScratch]
      split
      · exact .refused rfl
      · next hphase =>
        split
        · exact .refused rfl
        · next hfew => exact .scratch (not_not.mp hphase) (Nat.lt_of_not_le hfew)
  | start =>
      obtain rfl := Except.ok.inj h
      exact performs_start
  | pushLiteral l =>
      obtain rfl := Except.ok.inj h
      exact performs_push rfl rfl (l.declared _ _ _)
  | pushForwarded index =>
      obtain rfl := Except.ok.inj h
      rw [pushForwarded]
      cases htype : b.params[index.toNat]? with
      | none => exact .refused rfl
      | some type =>
          refine performs_push ?_ rfl ⟨type, htype, rfl⟩
          rw [Operation.argument?, htype]
          rfl
  | pushScratch index =>
      obtain rfl := Except.ok.inj h
      rw [pushScratch]
      split
      · next hindex => exact performs_push rfl rfl ⟨hindex, rfl⟩
      · exact .refused rfl
  | call callee convention far =>
      obtain ⟨s, hs, rfl⟩ := map_eq_ok.mp h
      exact performs_call hs
  | finish =>
      obtain ⟨s, hs, rfl⟩ := map_eq_ok.mp h
      exact performs_finish hs
  | flush kernel =>
      obtain rfl := Except.ok.inj h
      exact performs_flush kernel
  | reset =>
      obtain rfl := Except.ok.inj h
      exact .reset

/-! ### Runs and their histories -/

/-- One operation of a run and its answer. -/
structure Entry where
  operation : Operation
  answer : Except Error Reply

/-- Performs operations one after the other and keeps the answers. -/
def record (b : Builder) : List Operation → Except Fault (List Entry × Builder)
  | [] => .ok ([], b)
  | op :: ops => do
      let step ← b.apply op
      let (entries, last) ← step.builder.record ops
      return (⟨op, step.answer⟩ :: entries, last)

theorem record_cons_eq_ok {op : Operation} {ops : List Operation} {entries : List Entry} :
    b.record (op :: ops) = .ok (entries, b') ↔
      ∃ s later, b.apply op = .ok s ∧ s.builder.record ops = .ok (later, b') ∧
        entries = ⟨op, s.answer⟩ :: later := by
  rw [record, bind_eq_ok]
  constructor
  · rintro ⟨s, hs, h⟩
    obtain ⟨⟨later, last⟩, hlater, h⟩ := bind_eq_ok.mp h
    obtain ⟨rfl, rfl⟩ := Prod.mk.inj (Except.ok.inj h)
    exact ⟨s, later, hs, hlater, rfl⟩
  · rintro ⟨s, later, hs, hlater, rfl⟩
    exact ⟨s, hs, bind_eq_ok.mpr ⟨_, hlater, rfl⟩⟩

/-- Keeping the answers does not change the run. -/
theorem run_eq_record (b : Builder) (ops : List Operation) :
    b.run ops = (b.record ops).map Prod.snd := by
  induction ops generalizing b with
  | nil => rfl
  | cons op ops ih =>
      rw [run, record]
      cases b.apply op with
      | error fault => rfl
      | ok s =>
          show s.builder.run ops = _
          rw [ih]
          cases h : s.builder.record ops with
          | error fault =>
              show _ = Except.map Prod.snd (s.builder.record ops >>= _)
              rw [h]
              rfl
          | ok later =>
              show _ = Except.map Prod.snd (s.builder.record ops >>= _)
              rw [h]
              rfl

/-- What a run leaves to remember. -/
structure History where
  /-- The entry parameters that are declared. -/
  params : List ValueType := []
  /-- The scratch buffers that are declared. -/
  scratch : List UInt32 := []
  /-- The declarations that were in force when the trampoline was opened. -/
  opened : Option (List ValueType × List UInt32) := none
  /-- The arguments that wait for a call. -/
  args : List Operand := []
  /-- The calls of the trampoline. -/
  sites : List CallSite := []

namespace History

/-- The history after one more operation.  An operation that was refused leaves it as it was, but
for the arguments that it discarded. -/
def note (pointerSize : Nat) (h : History) (e : Entry) : History :=
  match e.operation, e.answer with
  | op, .error error => if op.discards error then { h with args := [] } else h
  | .declareParameters types, .ok _ => { h with params := types }
  | .declareScratch size, .ok _ => { h with scratch := h.scratch ++ [size] }
  | .start, .ok _ => { h with opened := some (h.params, h.scratch), args := [], sites := [] }
  | .pushLiteral l, .ok _ => { h with args := h.args ++ [l.operand pointerSize] }
  | .pushForwarded index, .ok _ =>
      { h with args := h.args ++ (h.params[index.toNat]?.map (.forwarded · index)).toList }
  | .pushScratch index, .ok _ => { h with args := h.args ++ [.scratch index] }
  | .call callee convention far, .ok _ =>
      { h with args := [], sites := h.sites ++ [⟨h.args, callee, convention, far⟩] }
  | .finish, .ok _ => h
  | .flush _, .ok (.program (some _)) => {}
  | .flush _, .ok _ => h
  | .reset, .ok _ => {}

/-- The history of a run. -/
def ofEntries (pointerSize : Nat) (entries : List Entry) : History :=
  entries.foldl (note pointerSize) {}

theorem note_refused {pointerSize : Nat} {h : History} {op : Operation} {error : Error}
    (keeps : op.discards error = false) : h.note pointerSize ⟨op, .error error⟩ = h := by
  rw [note]
  simp [keeps]

theorem note_discarded {pointerSize : Nat} {h : History} {op : Operation} {error : Error}
    (discards : op.discards error = true) :
    h.note pointerSize ⟨op, .error error⟩ = { h with args := [] } := by
  rw [note]
  simp [discards]

theorem note_of_argument {pointerSize : Nat} {h : History} {op : Operation} {a : Operand}
    (hop : op.argument? pointerSize h.params = some a) (r : Reply) :
    h.note pointerSize ⟨op, .ok r⟩ = { h with args := h.args ++ [a] } := by
  have hnote : h.note pointerSize ⟨op, .ok r⟩
      = { h with args := h.args ++ (op.argument? pointerSize h.params).toList } := by
    cases op with
    | pushLiteral l => rfl
    | pushForwarded index => rfl
    | pushScratch index => rfl
    | _ => cases hop
  rw [hnote, hop]
  rfl

end History

/-- What every operation preserves, a whole run preserves. -/
theorem record_induction {pointerSize : Nat} {I : History → Builder → Prop}
    (step : ∀ h b op answer b', I h b → b.Performs op answer b' →
      I (h.note pointerSize ⟨op, answer⟩) b')
    {ops : List Operation} {entries : List Entry} (hrun : b.record ops = .ok (entries, b'))
    {h : History} (hI : I h b) : I (entries.foldl (History.note pointerSize) h) b' := by
  induction ops generalizing b h entries with
  | nil =>
      obtain ⟨rfl, rfl⟩ := Prod.mk.inj (Except.ok.inj hrun)
      exact hI
  | cons op ops ih =>
      obtain ⟨s, later, hs, hlater, rfl⟩ := record_cons_eq_ok.mp hrun
      exact ih hlater (step h b op s.answer s.builder hI (performs_of_apply hs))

/-- The same of runs that nobody remembers. -/
theorem run_induction {I : Builder → Prop}
    (step : ∀ b op answer b', I b → b.Performs op answer b' → I b')
    {ops : List Operation} (hrun : b.run ops = .ok b') (hI : I b) : I b' := by
  rw [run_eq_record] at hrun
  obtain ⟨⟨entries, last⟩, hrecord, rfl⟩ := map_eq_ok.mp hrun
  exact @record_induction _ _ 0 (fun _ b => I b) (fun _ b op answer b' => step b op answer b')
    _ _ hrecord {} hI

theorem Performs.target_eq {op : Operation} {answer : Except Error Reply}
    (hp : b.Performs op answer b') : b'.encoder.target = b.encoder.target := by
  cases hp with
  | opened _ _ target => exact target
  | called _ _ _ target => exact target
  | _ => rfl

theorem target_of_run {ops : List Operation} (hrun : b.run ops = .ok b') :
    b'.encoder.target = b.encoder.target := by
  refine run_induction (I := fun c => c.encoder.target = b.encoder.target) ?_ hrun rfl
  intro _ _ _ _ htarget hp
  rw [hp.target_eq, htarget]

end Builder

end Trampoline
