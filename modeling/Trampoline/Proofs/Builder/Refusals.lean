/-
Trampoline/Proofs/Builder/Refusals.lean

Which operations are refused, with which error, and what is left of the builder.

`Refuses` lists the errors with the states in which they arise, in terms of the
phase, the declarations, the arguments that wait and the answers of the kernel.
The definitions test other things and in another order: opening a trampoline asks
the layout of the frame, which has an error of its own for too many parameters,
and a flush looks at the code before it looks at the phase.  The invariant of
builders makes both the same (`answers_error_iff`).

An operation that is refused has changed nothing, but for the arguments that a
call consumes and that an end discards.  It has logged nothing, but for pages that
were mapped and then may not become executable (`refusalLog`).
-/
import Mathlib
import Trampoline.Proofs.Builder.Invariant
import Trampoline.Proofs.Layout
import Trampoline.Proofs.Program

namespace Trampoline

/-- Only far calls are refused, and only on x86-64. -/
theorem Target.refusal?_eq_some {t : Target} {site : CallSite} {error : Error} :
    t.refusal? site = some error ↔
      site.far = true ∧ t ≠ .ia32 ∧ error = .farCall "x86-64" := by
  rw [refusal?]
  constructor
  · intro h
    split at h
    · next hfar =>
      refine ⟨hfar.2, ?_, (Option.some.inj h).symm⟩
      rintro rfl
      exact absurd hfar.1 (by decide)
    · cases h
  · rintro ⟨hfar, hne, rfl⟩
    refine if_pos ⟨?_, hfar⟩
    cases t with
    | systemV => rfl
    | microsoft => rfl
    | ia32 => exact absurd rfl hne

namespace Builder

/-! ### Errors and their causes -/

/-- Whether an operation gives an answer. -/
def Answers (b : Builder) (op : Operation) (answer : Except Error Reply) : Prop :=
  ∃ s, b.apply op = .ok s ∧ s.answer = answer

/-- The error with which a builder refuses an operation. -/
inductive Refuses (b : Builder) : Operation → Error → Prop
  | frozenParameters {types : List ValueType} (frozen : b.phase ≠ .idle) :
      Refuses b (.declareParameters types) .frameFrozen
  | manyParameters {types : List ValueType} (idle : b.phase = .idle) (many : 15 < types.length) :
      Refuses b (.declareParameters types) (.tooManyParameters types.length 15)
  | frozenScratch {size : UInt32} (frozen : b.phase ≠ .idle) :
      Refuses b (.declareScratch size) .frameFrozen
  | manyScratch {size : UInt32} (idle : b.phase = .idle) (full : b.scratch.length = 256) :
      Refuses b (.declareScratch size) (.tooManyScratch 256)
  | openAlready (building : b.phase = .building) : Refuses b .start .alreadyBuilding
  | notFlushed (finished : b.phase = .finished) : Refuses b .start .unflushed
  | tooLarge {size : Nat} (idle : b.phase = .idle)
      (overflows : Frame.Overflows b.params b.scratch size) :
      Refuses b .start (.frameTooLarge size)
  | literal {l : Literal} (closed : b.phase ≠ .building) :
      Refuses b (.pushLiteral l) .notBuilding
  | forwarded {index : UInt8} (closed : b.phase ≠ .building)
      (declared : index.toNat < b.params.length) : Refuses b (.pushForwarded index) .notBuilding
  | undeclaredParameter {index : UInt8} (undeclared : b.params.length ≤ index.toNat) :
      Refuses b (.pushForwarded index) (.parameterIndex index b.params.length)
  | scratch {index : UInt8} (closed : b.phase ≠ .building)
      (declared : index.toNat < b.scratch.length) : Refuses b (.pushScratch index) .notBuilding
  | undeclaredScratch {index : UInt8} (undeclared : b.scratch.length ≤ index.toNat) :
      Refuses b (.pushScratch index) (.scratchIndex index b.scratch.length)
  | call {callee : UInt64} {convention : Convention} {far : Bool} (closed : b.phase ≠ .building) :
      Refuses b (.call callee convention far) .notBuilding
  | farCall {callee : UInt64} {convention : Convention} (building : b.phase = .building)
      (amd64 : b.encoder.target ≠ .ia32) :
      Refuses b (.call callee convention true) (.farCall "x86-64")
  | finish (closed : b.phase ≠ .building) : Refuses b .finish .notBuilding
  | pending (building : b.phase = .building) (waiting : b.pending ≠ []) :
      Refuses b .finish (.pendingArguments b.pending.length)
  | unfinished {kernel : Kernel} (building : b.phase = .building) :
      Refuses b (.flush kernel) .unfinished
  | noPages {kernel : Kernel} {cause : String} (finished : b.phase = .finished)
      (refused : kernel.pages = .refused cause) :
      Refuses b (.flush kernel) (.memory "mmap" cause)
  | notExecutable {kernel : Kernel} {base : UInt64} {cause : String}
      (finished : b.phase = .finished) (granted : kernel.pages = .granted base)
      (refused : kernel.execution = .refused cause) :
      Refuses b (.flush kernel) (.memory "mprotect" cause)

variable {b : Builder}

/-! ### From the answer to its cause -/

theorem refuses_of_start (hb : b.WellFormed) {error : Error} (h : b.start.answer = .error error) :
    b.Refuses .start error := by
  rw [start] at h
  cases hphase : b.phase with
  | building =>
      rw [hphase] at h
      obtain rfl := Except.error.inj h
      exact .openAlready hphase
  | finished =>
      rw [hphase] at h
      obtain rfl := Except.error.inj h
      exact .notFlushed hphase
  | idle =>
      rw [hphase] at h
      cases hlayout : Frame.layout b.params b.scratch with
      | ok frame =>
          rw [hlayout] at h
          cases h
      | error e =>
          rw [hlayout] at h
          obtain rfl : e = error := Except.error.inj h
          -- the declarations were counted when they were made
          rcases Frame.layout_eq_error.mp hlayout with ⟨hmany, -⟩ | ⟨-, size, hover, rfl⟩
          · exact absurd hb.params_le (Nat.not_le.mpr hmany)
          · exact .tooLarge hphase hover

theorem eq_of_map_error {α : Type} {f : α → Reply} {s : Step α} {error : Error}
    (h : (s.map f).answer = .error error) : s.answer = .error error :=
  map_eq_error.mp h

theorem closed_of_push {a : Operand} {error : Error} (h : (b.push a).answer = .error error) :
    b.phase ≠ .building ∧ error = .notBuilding := by
  rw [push] at h
  split at h
  · next hphase => exact ⟨hphase, (Except.error.inj h).symm⟩
  · cases h

theorem refuses_of_call {callee : UInt64} {convention : Convention} {far : Bool} {s : Step Unit}
    {error : Error} (hs : b.call callee convention far = .ok s) (h : s.answer = .error error) :
    b.Refuses (.call callee convention far) error := by
  rw [Builder.call] at hs
  dsimp only at hs
  split at hs
  · next hphase =>
    obtain rfl := Except.ok.inj hs
    obtain rfl := Except.error.inj h
    exact .call hphase
  · next hphase =>
    obtain ⟨answer, hcall, rfl⟩ := map_eq_ok.mp hs
    rw [Encoder.call] at hcall
    split at hcall
    · next e hrefusal =>
      obtain rfl := Except.ok.inj hcall
      obtain rfl : e = error := Except.error.inj h
      obtain ⟨hfar, hamd64, rfl⟩ := Target.refusal?_eq_some.mp hrefusal
      obtain rfl : far = true := hfar
      exact .farCall (not_not.mp hphase) hamd64
    · obtain ⟨fragment, -, rfl⟩ := map_eq_ok.mp hcall
      cases h

/-- What has code and is not open is finished. -/
theorem WellFormed.finished (hb : b.WellFormed) (hcode : b.assembly ≠ [])
    (hphase : b.phase ≠ .building) : b.phase = .finished := by
  cases h : b.phase with
  | idle =>
      rw [assembly, (hb.idle h).1] at hcode
      exact absurd rfl hcode
  | building => exact absurd h hphase
  | finished => rfl

theorem refuses_of_flush (hb : b.WellFormed) {kernel : Kernel} {error : Error}
    (h : (b.flush kernel).answer = .error error) : b.Refuses (.flush kernel) error := by
  by_cases hcode : b.assembly = []
  · rw [flush, if_pos hcode] at h
    cases h
  by_cases hphase : b.phase = .building
  · rw [flush, if_neg hcode, if_pos hphase] at h
    obtain rfl := Except.error.inj h
    exact .unfinished hphase
  have hfinished := hb.finished hcode hphase
  rcases hacquired : Program.acquire .writeThenExecute kernel b.assembly with ⟨e | p, events⟩
  · rw [flush_of_error hcode hphase hacquired] at h
    obtain rfl : e = error := Except.error.inj h
    rcases Program.acquire_eq_error.mp hacquired with
      ⟨cause, hpages, rfl, -⟩ | ⟨base, cause, hpages, hexecution, rfl, -⟩
    · exact .noPages hfinished hpages
    · exact .notExecutable hfinished hpages hexecution
  · rw [flush_of_ok hcode hphase hacquired] at h
    cases h

/-- An error has its cause in the builder, or in the kernel. -/
theorem refuses_of_apply (hb : b.WellFormed) {op : Operation} {s : Step Reply} {error : Error}
    (hs : b.apply op = .ok s) (h : s.answer = .error error) : b.Refuses op error := by
  cases op with
  | declareParameters types =>
      obtain rfl := Except.ok.inj hs
      have h := eq_of_map_error h
      rw [declareParameters] at h
      split at h
      · next hphase =>
        obtain rfl := Except.error.inj h
        exact .frozenParameters hphase
      · next hphase =>
        split at h
        · next hmany =>
          obtain rfl := Except.error.inj h
          exact .manyParameters (not_not.mp hphase) hmany
        · cases h
  | declareScratch size =>
      obtain rfl := Except.ok.inj hs
      have h := eq_of_map_error h
      rw [declareScratch] at h
      split at h
      · next hphase =>
        obtain rfl := Except.error.inj h
        exact .frozenScratch hphase
      · next hphase =>
        split at h
        · next hfull =>
          obtain rfl := Except.error.inj h
          exact .manyScratch (not_not.mp hphase) (Nat.le_antisymm hb.scratch_le hfull)
        · cases h
  | start =>
      obtain rfl := Except.ok.inj hs
      exact refuses_of_start hb (eq_of_map_error h)
  | pushLiteral l =>
      obtain rfl := Except.ok.inj hs
      obtain ⟨hphase, rfl⟩ := closed_of_push (eq_of_map_error h)
      exact .literal hphase
  | pushForwarded index =>
      obtain rfl := Except.ok.inj hs
      have h := eq_of_map_error h
      rw [pushForwarded] at h
      cases htype : b.params[index.toNat]? with
      | none =>
          rw [htype] at h
          obtain rfl := Except.error.inj h
          exact .undeclaredParameter (List.getElem?_eq_none_iff.mp htype)
      | some type =>
          rw [htype] at h
          obtain ⟨hphase, rfl⟩ := closed_of_push h
          exact .forwarded hphase (List.getElem?_eq_some_iff.mp htype).1
  | pushScratch index =>
      obtain rfl := Except.ok.inj hs
      have h := eq_of_map_error h
      rw [pushScratch] at h
      split at h
      · next hindex =>
        obtain ⟨hphase, rfl⟩ := closed_of_push h
        exact .scratch hphase hindex
      · next hindex =>
        obtain rfl := Except.error.inj h
        exact .undeclaredScratch (Nat.not_lt.mp hindex)
  | call callee convention far =>
      obtain ⟨u, hu, rfl⟩ := map_eq_ok.mp hs
      exact refuses_of_call hu (eq_of_map_error h)
  | finish =>
      obtain ⟨u, hu, rfl⟩ := map_eq_ok.mp hs
      have h := eq_of_map_error h
      rw [Builder.finish] at hu
      split at hu
      · next hphase =>
        obtain rfl := Except.ok.inj hu
        obtain rfl := Except.error.inj h
        exact .finish hphase
      · next hphase =>
        split at hu
        · next hpending =>
          obtain rfl := Except.ok.inj hu
          obtain rfl := Except.error.inj h
          exact .pending (not_not.mp hphase) hpending
        · obtain ⟨r, -, rfl⟩ := map_eq_ok.mp hu
          cases h
  | flush kernel =>
      obtain rfl := Except.ok.inj hs
      exact refuses_of_flush hb (eq_of_map_error h)
  | reset =>
      obtain rfl := Except.ok.inj hs
      cases h

/-! ### From the cause to the answer -/

/-- What a refused operation has logged: the pages that the kernel granted but did not let become
executable, and nothing else. -/
def refusalLog (b : Builder) (op : Operation) (error : Error) : List Record :=
  match error, op with
  | .memory _ _, .flush ⟨page, .granted base, _⟩ =>
      [.memory (.mapped (Mapping.roundToPage (UInt64.ofNat b.assembly.length) page) base
        b.assembly.length)]
  | _, _ => []

/-- What is left after an operation was refused: the builder as it was, without the arguments that
the operation has discarded. -/
def refusal (b : Builder) (op : Operation) (error : Error) : Step Reply where
  answer := .error error
  builder := if op.discards error then { b with pending := [] } else b
  log := b.refusalLog op error

theorem push_of_closed (h : b.phase ≠ .building) (a : Operand) :
    b.push a = b.refuse .notBuilding :=
  if_pos h

/-- A finished trampoline has code and is not open. -/
theorem WellFormed.code_of_finished (hb : b.WellFormed) (h : b.phase = .finished) :
    b.assembly ≠ [] ∧ b.phase ≠ .building := by
  rw [h]
  exact ⟨(hb.opened (by rw [h]; decide)).1, by decide⟩

/-- Every cause leads to its error, and to nothing else. -/
theorem Refuses.apply_eq (hb : b.WellFormed) {op : Operation} {error : Error}
    (h : b.Refuses op error) : b.apply op = .ok (b.refusal op error) := by
  cases h with
  | frozenParameters frozen =>
      rw [apply, declareParameters, if_pos frozen]
      rfl
  | manyParameters idle many =>
      rw [apply, declareParameters, if_neg (not_not.mpr idle),
        if_pos (show Frame.maxParameters < _ from many)]
      rfl
  | frozenScratch frozen =>
      rw [apply, declareScratch, if_pos frozen]
      rfl
  | manyScratch idle full =>
      rw [apply, declareScratch, if_neg (not_not.mpr idle),
        if_pos (show maxScratch ≤ _ from full.ge)]
      rfl
  | openAlready building =>
      rw [apply, start, building]
      rfl
  | notFlushed finished =>
      rw [apply, start, finished]
      rfl
  | tooLarge idle overflows =>
      have hlayout := Frame.layout_eq_error.mpr (.inr ⟨hb.params_le, _, overflows, rfl⟩)
      rw [apply, start, idle, hlayout]
      rfl
  | literal closed =>
      rw [apply, pushLiteral, push_of_closed closed]
      rfl
  | forwarded closed declared =>
      rw [apply, pushForwarded, List.getElem?_eq_getElem declared]
      show Except.ok ((b.push _).map _) = _
      rw [push_of_closed closed]
      rfl
  | undeclaredParameter undeclared =>
      rw [apply, pushForwarded, List.getElem?_eq_none undeclared]
      rfl
  | scratch closed declared =>
      rw [apply, pushScratch, if_pos declared, push_of_closed closed]
      rfl
  | undeclaredScratch undeclared =>
      rw [apply, pushScratch, if_neg (Nat.not_lt.mpr undeclared)]
      rfl
  | call closed =>
      rw [apply, Builder.call, if_pos closed]
      rfl
  | @farCall callee convention building amd64 =>
      have hrefusal : b.encoder.target.refusal? ⟨b.pending, callee, convention, true⟩
          = some (.farCall "x86-64") := Target.refusal?_eq_some.mpr ⟨rfl, amd64, rfl⟩
      rw [apply, Builder.call, if_neg (not_not.mpr building), Encoder.call, hrefusal]
      rfl
  | finish closed =>
      rw [apply, Builder.finish, if_pos closed]
      rfl
  | pending building waiting =>
      rw [apply, Builder.finish, if_neg (not_not.mpr building), if_pos waiting]
      rfl
  | unfinished building =>
      have hcode : b.assembly ≠ [] := by
        refine (hb.opened ?_).1
        rw [building]
        decide
      rw [apply, flush, if_neg hcode, if_pos building]
      rfl
  | @noPages kernel cause finished refused =>
      obtain ⟨hcode, hphase⟩ := hb.code_of_finished finished
      have hacquired := (@Program.acquire_eq_error kernel b.assembly _ _).mpr
        (.inl ⟨cause, refused, rfl, rfl⟩)
      rw [apply, flush_of_error hcode hphase hacquired]
      obtain ⟨page, pages, execution⟩ := kernel
      obtain rfl : pages = .refused cause := refused
      rfl
  | @notExecutable kernel base cause finished granted refused =>
      obtain ⟨hcode, hphase⟩ := hb.code_of_finished finished
      have hacquired := (@Program.acquire_eq_error kernel b.assembly _ _).mpr
        (.inr ⟨base, cause, granted, refused, rfl, rfl⟩)
      rw [apply, flush_of_error hcode hphase hacquired]
      obtain ⟨page, pages, execution⟩ := kernel
      obtain rfl : pages = .granted base := granted
      rfl

/-- A well-formed builder answers with an error exactly when the error has its cause. -/
theorem answers_error_iff (hb : b.WellFormed) {op : Operation} {error : Error} :
    b.Answers op (.error error) ↔ b.Refuses op error := by
  constructor
  · rintro ⟨s, hs, hanswer⟩
    exact refuses_of_apply hb hs hanswer
  · intro h
    exact ⟨_, h.apply_eq hb, rfl⟩

/-! ### Answers in every state -/

theorem wellFormed_of_run {e : Encoder} {ops : List Operation}
    (hrun : ({ encoder := e } : Builder).run ops = .ok b) : b.WellFormed :=
  run_induction (fun _ _ _ _ hb hp => hb.step hp) hrun (wellFormed_fresh e)

/-- What a flush answers: nothing before a trampoline is opened, and the program after it is
finished, if the kernel grants the memory. -/
theorem answers_flush_iff (hb : b.WellFormed) (kernel : Kernel) (p : Option Program) :
    b.Answers (.flush kernel) (.ok (.program p)) ↔
      b.phase = .idle ∧ p = none ∨
      b.phase = .finished ∧ ∃ base, kernel.pages = .granted base ∧
        kernel.execution = .granted () ∧
        p = some (.inPages .writeThenExecute kernel.page base b.assembly) := by
  have hanswers : b.Answers (.flush kernel) (.ok (.program p)) ↔
      (b.flush kernel).answer = .ok p := by
    simp [Answers, apply, Step.map, map_eq_ok]
  rw [hanswers]
  cases hphase : b.phase with
  | idle =>
      have hempty : b.assembly = [] := by
        rw [assembly, (hb.idle hphase).1]
      simp [flush, hempty, eq_comm]
  | building =>
      have hcode : b.assembly ≠ [] := (hb.opened (by simp [hphase])).1
      simp [flush, hcode, hphase, refuse]
  | finished =>
      obtain ⟨hcode, hopen⟩ := hb.code_of_finished hphase
      rw [answer_flush hcode hopen, map_eq_ok]
      constructor
      · rintro ⟨q, hq, rfl⟩
        obtain ⟨base, hpages, hexecution, rfl⟩ := Program.acquire_eq_ok.mp hq
        exact .inr ⟨rfl, base, hpages, hexecution, rfl⟩
      · rintro (⟨hidle, -⟩ | ⟨-, base, hpages, hexecution, rfl⟩)
        · cases hidle
        · exact ⟨_, Program.acquire_eq_ok.mpr ⟨base, hpages, hexecution, rfl⟩, rfl⟩

/-- Whatever was done with a builder before, an operation is refused with an error exactly when the
error has its cause, nothing else refuses it, and what is refused changes nothing but for the
arguments that it discards.  A trampoline cannot be opened exactly when one is open or waits to be
flushed, or when its frame is too large.  A finished one is handed out exactly when the kernel
grants executable pages. -/
theorem refusals_exact {e : Encoder} {ops : List Operation}
    (hrun : ({ encoder := e } : Builder).run ops = .ok b) (op : Operation) :
    b.encoder.target = e.target ∧
    (∀ error, b.Answers op (.error error) ↔ b.Refuses op error) ∧
    (∀ s error, b.apply op = .ok s → s.answer = .error error → s = b.refusal op error) ∧
    ((∀ error, ¬ b.Refuses op error) → (op = .finish → b.finishedLength < 2 ^ 31) →
      ∃ reply, b.Answers op (.ok reply)) ∧
    ((∃ error, b.Answers .start (.error error)) ↔
      b.phase ≠ .idle ∨ 2 ^ 31 - 1 < Frame.demand b.params b.scratch) ∧
    ∀ kernel p, b.Answers (.flush kernel) (.ok (.program p)) ↔
      b.phase = .idle ∧ p = none ∨
      b.phase = .finished ∧ ∃ base, kernel.pages = .granted base ∧
        kernel.execution = .granted () ∧
        p = some (.inPages .writeThenExecute kernel.page base b.assembly) := by
  have hb := wellFormed_of_run hrun
  refine ⟨target_of_run hrun, fun error => answers_error_iff hb, ?_, ?_, ?_, answers_flush_iff hb⟩
  · intro s error hs hanswer
    have heq := (refuses_of_apply hb hs hanswer).apply_eq hb
    rw [hs] at heq
    exact Except.ok.inj heq
  · intro hnone hsize
    obtain ⟨s, hs⟩ := exists_apply hb fun hop _ _ => hsize hop
    cases hanswer : s.answer with
    | ok reply => exact ⟨reply, s, hs, hanswer⟩
    | error error => exact absurd (refuses_of_apply hb hs hanswer) (hnone error)
  · simp only [answers_error_iff hb]
    rw [show 2 ^ 31 - 1 < Frame.demand b.params b.scratch ↔
        2 ^ 31 ≤ Frame.demand b.params b.scratch by omega,
      ← Frame.exists_overflows_iff hb.params_le]
    constructor
    · rintro ⟨error, h⟩
      cases h with
      | openAlready building => exact .inl (by rw [building]; decide)
      | notFlushed finished => exact .inl (by rw [finished]; decide)
      | tooLarge _ overflows => exact .inr ⟨_, overflows⟩
    · intro h
      cases hphase : b.phase with
      | building => exact ⟨_, .openAlready hphase⟩
      | finished => exact ⟨_, .notFlushed hphase⟩
      | idle =>
          obtain ⟨size, hover⟩ := h.resolve_left (not_not.mpr hphase)
          exact ⟨_, .tooLarge hphase hover⟩

/-- An open trampoline with an argument that waits refuses a far call and loses the argument. -/
theorem refusals_exact_far_call :
    ∃ b, (create .microsoft).run [.declareParameters [.double], .declareScratch 16, .start,
        .pushForwarded 0] = .ok b ∧ b.pending ≠ [] ∧
      b.Answers (.call 0x1000 .cdecl true) (.error (.farCall "x86-64")) ∧
      ∀ s error, b.apply (.call 0x1000 .cdecl true) = .ok s → s.answer = .error error →
        s.builder = { b with pending := [] } := by
  have hcheck : ((create .microsoft).run [.declareParameters [.double], .declareScratch 16, .start,
      .pushForwarded 0]).map (fun b => decide (b.pending ≠ [] ∧ b.phase = .building ∧
        b.encoder.target ≠ .ia32)) = .ok true := by
    decide +kernel
  obtain ⟨b, hrun, hb⟩ := map_eq_ok.mp hcheck
  obtain ⟨hpending, hphase, htarget⟩ := of_decide_eq_true hb
  obtain ⟨-, hrefused, hatomic, -⟩ := refusals_exact hrun (.call 0x1000 .cdecl true)
  refine ⟨b, hrun, hpending, (hrefused _).mpr (.farCall hphase htarget), ?_⟩
  intro s error hs hanswer
  rw [hatomic s error hs hanswer]
  rfl

end Builder

end Trampoline
