/-
Trampoline/Proofs/Builder/Assembly.lean

The code of a builder is a function of its history.

An open trampoline is the prologue of its frame and then one piece of code for
each call, in order; a finished one has the epilogue behind them, then the
literals, and differs from that in the fields of the literals only.  The piece of
a call depends on the target, the frame and the call alone: where it stands, what
stands before it and what was refused in between leave no trace, but that the
positions of its literals count from the start of the piece.  Calls that are
written behind one another, with all positions counted from the start of the
trampoline, give the same.
-/
import Mathlib
import Trampoline.Proofs.Builder.Invariant
import Trampoline.Proofs.Writing

namespace Trampoline

/-! ### Pieces of code one after the other -/

namespace Fragment

/-- The literals of pieces of code that stand one after the other, the first one at `start`. -/
def literalsFrom (start : Nat) : List Fragment → List Deferred
  | [] => []
  | f :: fs => f.literals.map (·.shift start) ++ literalsFrom (start + f.code.length) fs

theorem literalsFrom_append (start : Nat) (fs gs : List Fragment) :
    literalsFrom start (fs ++ gs)
      = literalsFrom start fs ++ literalsFrom (start + (fs.flatMap (·.code)).length) gs := by
  induction fs generalizing start with
  | nil => rfl
  | cons f fs ih =>
      rw [List.cons_append, literalsFrom, literalsFrom, ih, List.flatMap_cons, List.length_append,
        List.append_assoc, Nat.add_assoc]

theorem code_concat (fs : List Fragment) : (concat fs).code = fs.flatMap (·.code) := by
  induction fs with
  | nil => rfl
  | cons f fs ih => rw [concat, code_append, ih, List.flatMap_cons]

theorem literals_concat (start : Nat) (fs : List Fragment) :
    (concat fs).literals.map (·.shift start) = literalsFrom start fs := by
  induction fs generalizing start with
  | nil => rfl
  | cons f fs ih =>
      rw [concat, literals_append, List.map_append, map_shift_shift, ih, literalsFrom]

end Fragment

namespace Target

/-- An open trampoline: the prologue, then the code of each call. -/
def openCode (t : Target) (frame : Frame) (calls : List Fragment) : Fragment where
  code := t.prologueCode frame ++ calls.flatMap (·.code)
  literals := Fragment.literalsFrom (t.prologueCode frame).length calls

theorem openCode_nil (t : Target) (frame : Frame) :
    t.openCode frame [] = { code := t.prologueCode frame } := by
  rw [openCode, List.flatMap_nil, List.append_nil]
  rfl

theorem openCode_append (t : Target) (frame : Frame) (calls : List Fragment) (f : Fragment) :
    t.openCode frame (calls ++ [f]) = t.openCode frame calls ++ f := by
  apply Fragment.ext
  · rw [Fragment.code_append, openCode, openCode, List.flatMap_append, List.flatMap_singleton,
      List.append_assoc]
  · rw [Fragment.literals_append, openCode, openCode, Fragment.literalsFrom_append,
      List.length_append, Fragment.literalsFrom, Fragment.literalsFrom, List.append_nil]

/-- Calls that are written behind the prologue, one after the other, give an open trampoline. -/
theorem writeCalls_eq_openCode {t : Target} {frame : Frame} {sites : List CallSite}
    {calls : List Fragment} (h : sites.mapM (t.callFragment frame) = .ok calls)
    (hfits : (t.openCode frame calls).code.length < Code.addressSpace) :
    t.writeCalls frame sites { code := t.prologueCode frame } = .ok (t.openCode frame calls) := by
  have hopen : ({ code := t.prologueCode frame } : Fragment) ++ Fragment.concat calls
      = t.openCode frame calls := by
    apply Fragment.ext
    · rw [Fragment.code_append, Fragment.code_concat, openCode]
    · rw [Fragment.literals_append, Fragment.literals_concat, openCode, List.nil_append]
  rw [← hopen] at hfits ⊢
  rw [Fragment.code_append, List.length_append] at hfits
  exact appends_writeCalls h _ hfits

theorem closed_openCode {t : Target} {frame : Frame} {sites : List CallSite}
    {calls : List Fragment} (h : sites.mapM (t.callFragment frame) = .ok calls) :
    (t.openCode frame calls).Closed := by
  have hcalls : ∀ f ∈ calls, f.Closed := by
    intro f hf
    obtain ⟨site, -, hsite⟩ := exists_of_forall₂ (mapM_eq_ok.mp h) hf
    exact closed_callFragment hsite
  clear h
  -- calls are appended at the end
  induction calls using List.reverseRecOn with
  | nil => exact Fragment.closed_of_literals_eq_nil rfl
  | append_singleton calls f ih =>
      rw [openCode_append]
      exact (ih fun g hg => hcalls g (by simp [hg])).append (hcalls f (by simp))

end Target

namespace Builder

/-! ### The code and the history -/

/-- Whether the code of a builder is the one that a history tells. -/
structure Follows (target : Target) (h : History) (b : Builder) : Prop where
  sites : ∀ site ∈ h.sites, target.refusal? site = none ∧
    ∀ a ∈ site.args, a.Declared b.params b.scratch
  building : b.phase = .building → ∃ calls,
    h.sites.mapM (target.callFragment b.frame) = .ok calls ∧
      b.draft = target.openCode b.frame calls
  finished : b.phase = .finished → ∃ calls placed,
    h.sites.mapM (target.callFragment b.frame) = .ok calls ∧
      (target.openCode b.frame calls ++
        ({ code := target.epilogueCode b.frame } : Fragment)).resolve = .ok (b.draft, placed)

theorem follows_fresh (target : Target) (e : Encoder) : Follows target {} { encoder := e } where
  sites := fun _ h => absurd h List.not_mem_nil
  building := fun h => nomatch h
  finished := fun h => nomatch h

variable {b b' : Builder} {target : Target} {h : History}

theorem Follows.step (hf : Follows target h b) (hb : b.WellFormed) (ht : Tracks target h b)
    {op : Operation} {answer : Except Error Reply} (hp : b.Performs op answer b') :
    Follows target (h.note target.pointerSize ⟨op, answer⟩) b' := by
  obtain rfl := ht.target_eq
  cases hp with
  | refused keeps =>
      rw [History.note_refused keeps]
      exact hf
  | discarded discards =>
      rw [History.note_discarded discards]
      exact ⟨hf.sites, hf.building, hf.finished⟩
  | parameters hidle few =>
      -- the history has no calls yet
      refine ⟨?_, hf.building, hf.finished⟩
      intro site hsite
      have hmem : site ∈ h.sites := hsite
      rw [(ht.idle hidle).2] at hmem
      exact absurd hmem List.not_mem_nil
  | scratch hidle few =>
      refine ⟨?_, hf.building, hf.finished⟩
      intro site hsite
      have hmem : site ∈ h.sites := hsite
      rw [(ht.idle hidle).2] at hmem
      exact absurd hmem List.not_mem_nil
  | @opened frame e hidle layout target =>
      refine ⟨fun _ h => absurd h List.not_mem_nil, ?_, fun h => nomatch h⟩
      intro _
      refine ⟨[], rfl, ?_⟩
      rw [Target.openCode_nil, (hb.idle hidle).1]
      exact Fragment.empty_append _
  | @pushed op a building argument declared =>
      rw [← ht.params_eq] at argument
      rw [History.note_of_argument argument]
      exact ⟨hf.sites, hf.building, hf.finished⟩
  | @called callee convention far fragment e building accepted written target =>
      obtain ⟨calls, hcalls, hdraft⟩ := hf.building building
      have hsite : h.args = b.pending := ht.args_eq
      refine ⟨?_, ?_, ?_⟩
      · intro site hmem
        rcases List.mem_append.mp hmem with hmem | hmem
        · exact hf.sites site hmem
        · rw [List.mem_singleton.mp hmem, hsite]
          exact ⟨accepted, hb.declared⟩
      · intro _
        refine ⟨calls ++ [fragment], ?_, ?_⟩
        · refine mapM_eq_ok.mpr (List.rel_append (mapM_eq_ok.mp hcalls) (.cons ?_ .nil))
          rw [hsite]
          exact written
        · rw [Target.openCode_append, ← hdraft]
      · intro h
        rw [show b.phase = .finished from h] at building
        cases building
  | @closed draft placed building consumed resolved =>
      obtain ⟨calls, hcalls, hdraft⟩ := hf.building building
      refine ⟨hf.sites, ?_, ?_⟩
      · intro h
        cases h
      · intro _
        refine ⟨calls, placed, hcalls, ?_⟩
        rw [← hdraft]
        exact resolved
  | empty _ => exact hf
  | flushed _ _ _ => exact follows_fresh _ b.encoder
  | reset => exact follows_fresh _ b.encoder

theorem record_follows {ops : List Operation} {entries : List Entry}
    (hrun : (create target).record ops = .ok (entries, b)) :
    b.WellFormed ∧ Tracks target (History.ofEntries target.pointerSize entries) b ∧
      Follows target (History.ofEntries target.pointerSize entries) b := by
  refine record_induction (I := fun h b => b.WellFormed ∧ Tracks target h b ∧ Follows target h b)
    ?_ hrun ⟨wellFormed_fresh _, tracks_fresh { target := target }, follows_fresh target _⟩
  rintro h b op answer b' ⟨hb, ht, hf⟩ hp
  exact ⟨hb.step hp, ht.step hb hp, hf.step hb ht hp⟩

/-- The code of a trampoline is a function of what its history tells: the declarations it was
opened with, and the calls that were not refused with the arguments that were waiting for them.
Each call has a piece of its own, and writing the calls one behind the other gives these pieces. -/
theorem assembly_of_history {ops : List Operation} {entries : List Entry}
    (hrun : (create target).record ops = .ok (entries, b)) (hphase : b.phase ≠ .idle) :
    let h := History.ofEntries target.pointerSize entries
    ∃ params scratch calls,
      h.opened = some (params, scratch) ∧ Frame.layout params scratch = .ok b.frame ∧
      h.sites.mapM (target.callFragment b.frame) = .ok calls ∧
      let body := target.prologueCode b.frame ++ calls.flatMap (·.code)
      let literals := Fragment.literalsFrom (target.prologueCode b.frame).length calls
      let raw := body ++ target.epilogueCode b.frame
      (body.length < Code.addressSpace →
        target.writeCalls b.frame h.sites { code := target.prologueCode b.frame }
          = .ok ⟨body, literals⟩) ∧
      (b.phase = .building →
        b.assembly = body ∧ b.draft.literals = literals ∧ b.pending = h.args) ∧
      (b.phase = .finished →
        (∃ placed, (⟨raw, literals⟩ : Fragment).resolve = .ok (b.draft, placed)) ∧
        b.assembly.length = raw.length + (Fragment.literalBytes literals).length ∧
        b.assembly.drop raw.length = Fragment.literalBytes literals ∧
        ∀ i < raw.length, (∀ d ∈ literals, i < d.patchOffset ∨ d.patchOffset + 4 ≤ i) →
          b.assembly[i]? = raw[i]?) := by
  intro h
  obtain ⟨hb, ht, hf⟩ := record_follows hrun
  have hlayout := (hb.opened hphase).2
  rcases hcase : b.phase with - | - | -
  · exact absurd hcase hphase
  · obtain ⟨calls, hcalls, hdraft⟩ := hf.building hcase
    refine ⟨b.params, b.scratch, calls, ht.opened hphase, hlayout, hcalls,
      Target.writeCalls_eq_openCode hcalls, ?_, ?_⟩
    · intro _
      refine ⟨?_, ?_, ht.args_eq.symm⟩
      · rw [assembly, hdraft]
        rfl
      · rw [hdraft]
        rfl
    · intro hfinished
      cases hfinished
  · obtain ⟨calls, placed, hcalls, hresolve⟩ := hf.finished hcase
    have hclosed : (target.openCode b.frame calls ++
        ({ code := target.epilogueCode b.frame } : Fragment)).Closed :=
      (Target.closed_openCode hcalls).append (Fragment.closed_of_literals_eq_nil rfl)
    obtain ⟨-, hlength, hdrop, hkeep⟩ := Fragment.resolve_spec hclosed hresolve
    -- the epilogue adds no literals
    have hraw : target.openCode b.frame calls ++
        ({ code := target.epilogueCode b.frame } : Fragment)
        = ⟨target.prologueCode b.frame ++ calls.flatMap (·.code) ++ target.epilogueCode b.frame,
            Fragment.literalsFrom (target.prologueCode b.frame).length calls⟩ :=
      Fragment.ext rfl (List.append_nil _)
    rw [hraw] at hresolve hlength hdrop hkeep
    refine ⟨b.params, b.scratch, calls, ht.opened hphase, hlayout, hcalls,
      Target.writeCalls_eq_openCode hcalls, ?_, ?_⟩
    · intro hbuilding
      cases hbuilding
    · intro _
      exact ⟨⟨placed, hresolve⟩, hlength, hdrop, hkeep⟩

/-- A finished trampoline with two calls of literals, between refused operations. -/
theorem assembly_of_history_two_calls :
    let ops : List Operation := [
      .declareParameters [.double, .byte], .declareScratch 12, .start, .declareScratch 4,
      .pushLiteral (.double 7), .pushForwarded 1, .call 0x1000 .cdecl false,
      .pushLiteral (.dword 2), .call 0x2000 .cdecl true, .pushForwarded 2,
      .pushLiteral (.float 9), .pushScratch 0, .call 0x3000 .stdcall false,
      .pushLiteral (.byte 1), .finish, .finish, .start]
    ∃ entries b, (create .microsoft).record ops = .ok (entries, b) ∧ b.phase = .finished ∧
      let h := History.ofEntries Target.microsoft.pointerSize entries
      ∃ params scratch calls,
        h.opened = some (params, scratch) ∧ Frame.layout params scratch = .ok b.frame ∧
        h.sites.mapM (Target.microsoft.callFragment b.frame) = .ok calls ∧
        let literals := Fragment.literalsFrom (Target.microsoft.prologueCode b.frame).length calls
        let raw := Target.microsoft.prologueCode b.frame ++ calls.flatMap (·.code) ++
          Target.microsoft.epilogueCode b.frame
        b.assembly.drop raw.length = Fragment.literalBytes literals := by
  intro ops
  have hphase : ((create .microsoft).run ops).map (·.phase) = .ok .finished := by decide +kernel
  rw [run_eq_record] at hphase
  obtain ⟨b, hb, hfinished⟩ := map_eq_ok.mp hphase
  obtain ⟨⟨entries, b⟩, hrun, rfl⟩ := map_eq_ok.mp hb
  have hne : b.phase ≠ .idle := by
    rw [show b.phase = .finished from hfinished]
    decide
  obtain ⟨params, scratch, calls, hopened, hlayout, hcalls, -, -, hend⟩ :=
    assembly_of_history hrun hne
  exact ⟨entries, b, hrun, hfinished, params, scratch, calls, hopened, hlayout, hcalls,
    (hend hfinished).2.2.1⟩

end Builder

end Trampoline
