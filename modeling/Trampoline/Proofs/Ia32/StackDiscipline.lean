/-
Trampoline/Proofs/Ia32/StackDiscipline.lean

How the stack pointer and the frame pointer move through a trampoline on IA-32.

The instructions are those that the code decodes to, followed one after the
other (`moments`, `outcome`).  A callee takes its return frame off the stack, and
its stack arguments too where the convention says so (`GivesBack`); otherwise it
gives back both pointers and leaves the saved frame pointer alone.  This is asked of
it only in the state it is entered with.

`BalancedStack` says where the stack pointer rests between calls, what it finds
when the return frame of a call is about to be built, and that the caller's
pointers are back at the end.  The four conventions share one formula for the
padding and one for the cleanup; what makes them agree with the callee is
`popped_add_cleanup`.  The proof follows one call (`follow_call`), and then any
number of them by induction on the list of calls (`follow_calls`).
-/
import Mathlib
import Trampoline.Proofs.Following
import Trampoline.Proofs.Ia32.Call
import Trampoline.Proofs.Ia32.Decode
import Trampoline.Proofs.Ia32.Prologue

namespace Trampoline.Ia32

open Memory (offset)

open InstructionSet (isCall)

/-! ### What callees give back -/

/-- The bytes that the callee of a call takes off the stack: the return frame, and the stack
arguments if the convention leaves them to the callee. -/
def popped (site : CallSite) : Nat :=
  4 + segmentBytes site + if site.convention.calleeCleanup then stackedBytes site else 0

/-- Whether the callee of a call that was entered in the state `e` and returned in the state `c`
returned as its convention says, with the frame pointer and with the four bytes it points to as they
were: they are the saved frame pointer. -/
structure GivesBack (site : CallSite) (e c : State) : Prop where
  esp : c.gpr .esp = offset (e.gpr .esp) (popped site)
  ebp : c.gpr .ebp = e.gpr .ebp
  saved : c.mem.read (e.gpr .ebp) 4 = e.mem.read (e.gpr .ebp) 4

/-- Whether the `n`-th callee gave back what the `n`-th site asks for. -/
def GivesBackAt (sites : List CallSite) (n : Nat) (e c : State) : Prop :=
  ∀ site, sites[n]? = some site → GivesBack site e c

/-! ### One call -/

/-- Callee and caller together take off what the call put on the stack. -/
theorem popped_add_cleanup (frame : Frame) (site : CallSite) :
    popped site + cleanup frame site = 4 + segmentBytes site + callDepth frame site := by
  rw [popped, cleanup, cleanupBytes, callDepth]
  split <;> omega

/-- A state between calls: the stack pointer is at the end of the frame. -/
structure Resting (frame : Frame) (fp : BitVec 32) (s : State) : Prop where
  ebp : s.gpr .ebp = fp
  esp : s.gpr .esp = offset fp (-frame.size)

/-- The moments of one call, split where its return frame is about to be built: `m` is the push of
the code segment if the call is far, and the call otherwise. -/
structure SplitAt (site : CallSite) (front : List (Moment Instr State))
    (m : Moment Instr State) (back : List (Moment Instr State)) :
    Prop where
  instr : m.instr = if site.far then .pushCs else .call .eax
  /-- One call is made, and not before `m`. -/
  uncalled : front.countP (isCall ·.instr) = 0
  called : (m :: back).countP (isCall ·.instr) = 1
  /-- What was pushed before `m` are the stack arguments, and nothing is pushed after it. -/
  pushed : 4 * front.countP (·.instr.isPush) = stackedBytes site
  unpushed : back.countP (·.instr.isPush) = 0

/-- The first instruction of a return frame. -/
theorem segment_call (site : CallSite) (rest : List Instr) :
    ∃ tail, segment site ++ .call .eax :: rest
        = (if site.far then .pushCs else .call .eax) :: tail ∧
      tail.countP Instr.isPush = rest.countP Instr.isPush := by
  rw [segment]
  cases site.far with
  | false => exact ⟨rest, rfl, rfl⟩
  | true =>
      refine ⟨.loadImm .eax site.callee.toUInt32 :: .call .eax :: rest, rfl, ?_⟩
      rw [Instr.loadImm]
      split <;> rfl

section

variable {params : List ValueType} {scratch : List UInt32} {frame : Frame} {fp : BitVec 32}
  {callees : Callees State}

/-- A call below the frame pointer pushes its return address there, and the saved frame pointer
stays. -/
theorem perform_call {u : State} {d : Int} (hesp : u.gpr .esp = offset fp d) (hd : d ≤ 0)
    (hlow : -(2 ^ 32 - 8) ≤ d) :
    (perform (Instr.call .eax) u).gpr .ebp = u.gpr .ebp ∧
      (perform (Instr.call .eax) u).gpr .esp = offset fp (d - 4) ∧
      (perform (Instr.call .eax) u).mem.read fp 4 = u.mem.read fp 4 := by
  let next := offset u.eip (Instr.call .eax).encode.length
  have hesp' : (perform (Instr.call .eax) u).gpr .esp = offset (u.gpr .esp) (-4) :=
    State.gpr_push_esp { u with eip := next } next
  have hmem : (perform (Instr.call .eax) u).mem
      = u.mem.writeNat (offset (u.gpr .esp) (-4)) 4 next.toNat :=
    State.mem_push { u with eip := next } next
  have hslot : offset (u.gpr .esp) (-4) = offset fp (d - 4) := by
    rw [hesp, Memory.offset_offset]
    rfl
  have hebp : (perform (Instr.call .eax) u).gpr .ebp = u.gpr .ebp :=
    State.gpr_push_ne { u with eip := next } next (show Gpr.ebp ≠ .esp by decide)
  refine ⟨hebp, hesp'.trans hslot, ?_⟩
  rw [hmem, hslot]
  have hkeep : (u.mem.writeNat (offset fp (d - 4)) 4 next.toNat).read (offset fp 0) 4
      = u.mem.read (offset fp 0) 4 := by
    refine Memory.read_writeNat_of_apart _ _ (Memory.apart_offset (.inr ?_) ?_ ?_) <;> omega
  rwa [Memory.offset_zero] at hkeep

/-- From a ready state on, one call is made, and after the cleanup the stack pointer rests. -/
theorem Ready.follow (hl : frame.Laid params scratch) {site : CallSite}
    (hargs : site.args.length < 2 ^ 27) {t : State} (hready : Ready frame site fp t)
    {sites : List CallSite} {n : Nat} (hsite : sites[n]? = some site)
    (hback : AllGiveBack (GivesBackAt sites) callees n
      (segment site ++ .call .eax :: adjustStack .add (cleanup frame site)) t) :
    let is := segment site ++ .call .eax :: adjustStack .add (cleanup frame site)
    let u := outcome callees n is t
    Resting frame fp u ∧ u.mem.read fp 4 = t.mem.read fp 4 ∧ is.countP isCall = 1 := by
  intro is u
  have hsize := hl.size_lt
  have hdepth := callDepth_lt frame hargs
  have hsegment : segmentBytes site ≤ 4 := by
    rw [segmentBytes]
    split <;> decide
  obtain ⟨v, hruns, hesp, hgpr, -⟩ := hready.runs_segment
  have hebp := (hgpr .ebp (by decide) (by decide)).trans hready.ebp
  rw [hready.esp, Memory.offset_offset] at hesp
  obtain ⟨hebp', hesp', hmem'⟩ := perform_call hesp (by omega) (by omega)
  obtain ⟨hout, hcount, -⟩ := hruns.follow callees n
  -- the callee returns
  rw [allGiveBack_append, hcount, hout, Nat.add_zero] at hback
  obtain ⟨hcesp, hcebp, hcmem⟩ := hback.2.1 rfl site hsite
  set e := perform (Instr.call .eax) v with he
  rw [hebp', hebp] at hcebp hcmem
  have hsaved : (callees n e).mem.read fp 4 = t.mem.read fp 4 := by
    rw [hcmem, hmem']
    exact hruns.read_fp (by omega) (by omega)
  -- the cleanup
  obtain ⟨w, hclean, hwesp, hwgpr, hwmem⟩ :=
    runs_adjustStack (P := fun _ => False) .add (cleanup frame site) (callees n e)
  have hw : Resting frame fp w := by
    have hbalance := popped_add_cleanup frame site
    refine ⟨(hwgpr _ (by decide)).trans hcebp, ?_⟩
    rw [hwesp, hcesp, hesp', Memory.offset_offset, Memory.offset_offset]
    congr 1
    simp only [Memory.moved]
    omega
  obtain ⟨hout', hcount', -⟩ := hclean.follow callees (n + 1)
  have hu : u = w := by
    show outcome callees n (segment site ++ .call .eax :: adjustStack .add (cleanup frame site)) t
      = w
    rw [outcome_append, hcount, hout]
    exact hout'
  rw [hu, hwmem]
  refine ⟨hw, hsaved, ?_⟩
  rw [List.countP_append, hcount, List.countP_cons, hcount']
  rfl

theorem follow_call (hl : frame.Laid params scratch) {site : CallSite}
    (hargs : site.args.length < 2 ^ 27) (hvalid : ∀ a ∈ site.args, a.ValidIn frame)
    {is : List Instr} (his : callInstrs frame site = .ok is) {sites : List CallSite} {n : Nat}
    (hsite : sites[n]? = some site) {s : State}
    (hback : AllGiveBack (GivesBackAt sites) callees n is s) (hs : Resting frame fp s) :
    let u := outcome callees n is s
    Resting frame fp u ∧ u.mem.read fp 4 = s.mem.read fp 4 ∧ is.countP isCall = 1 ∧
      ∃ front m back, moments callees n is s = front ++ m :: back ∧
        SplitAt site front m back ∧ Ready frame site fp m.state := by
  intro u
  have hsize := hl.size_lt
  have hdepth := callDepth_lt frame hargs
  obtain ⟨pushes, loads, hpushes, hloads, rfl⟩ := callInstrs_eq_ok his
  obtain ⟨t, hruns, hready, -, -, hpushed⟩ :=
    runs_readying hl hargs hvalid hpushes hloads hs.ebp hs.esp
  obtain ⟨hout, hcount, -⟩ := hruns.follow callees n
  rw [allGiveBack_append, hcount, hout, Nat.add_zero] at hback
  obtain ⟨hrest, hsaved, hcalls⟩ := hready.follow hl hargs hsite hback.2
  have hkeep : t.mem.read fp 4 = s.mem.read fp 4 := hruns.read_fp (by omega) (by omega)
  have hu : u = outcome callees n
      (segment site ++ .call .eax :: adjustStack .add (cleanup frame site)) t := by
    show outcome callees n (readying frame site pushes loads ++ _) s = _
    rw [outcome_append, hcount, hout, Nat.add_zero]
  rw [hu, moments_append, hcount, hout, Nat.add_zero, List.countP_append, hcount, hcalls]
  refine ⟨hrest, hsaved.trans hkeep, rfl, ?_⟩
  -- the return frame starts where the first part of the call ends
  obtain ⟨tail, hhead, htail⟩ := segment_call site (adjustStack .add (cleanup frame site))
  rw [hhead] at hcalls ⊢
  refine ⟨_, _, _, rfl, ⟨rfl, ?_, ?_, ?_, ?_⟩, hready⟩
  · rw [countP_moments, hcount]
  · rw [← moments, countP_moments, hcalls]
  · rw [countP_moments, hpushed]
  · rw [countP_moments, htail, countP_adjustStack]

/-! ### Any number of calls -/

/-- Any number of calls.  Their sites are those of `all` from the `n`-th on. -/
theorem follow_calls (hl : frame.Laid params scratch) {sites all : List CallSite}
    {blocks : List (List Instr)}
    (hblocks : List.Forall₂ (fun site is => callInstrs frame site = .ok is) sites blocks)
    (hsites : ∀ site ∈ sites, site.args.length < 2 ^ 27 ∧ ∀ a ∈ site.args, a.ValidIn frame)
    (n : Nat) (hall : ∀ (k : Nat) (site : CallSite), sites[k]? = some site →
      all[n + k]? = some site)
    {s : State} (hback : AllGiveBack (GivesBackAt all) callees n blocks.flatten s)
    (hs : Resting frame fp s) :
    let u := outcome callees n blocks.flatten s
    Resting frame fp u ∧ u.mem.read fp 4 = s.mem.read fp 4 ∧
      blocks.flatten.countP isCall = blocks.length := by
  induction hblocks generalizing n s with
  | nil => exact ⟨hs, rfl, rfl⟩
  | @cons site is sites blocks his _ ih =>
      intro u
      obtain ⟨hargs, hvalid⟩ := hsites site (by simp)
      rw [List.flatten_cons, allGiveBack_append] at hback
      obtain ⟨hs₁, hsaved₁, hcount₁, -⟩ :=
        follow_call hl hargs hvalid his (hall 0 site rfl) hback.1 hs
      have hall' : ∀ (k : Nat) (site' : CallSite), sites[k]? = some site' →
          all[n + 1 + k]? = some site' := by
        intro k site' hk
        rw [Nat.add_assoc, Nat.add_comm 1 k]
        exact hall (k + 1) site' hk
      rw [hcount₁] at hback
      obtain ⟨hu, hsaved, hcount⟩ :=
        ih (fun x hx => hsites x (by simp [hx])) (n + 1) hall' hback.2 hs₁
      have hout : u = outcome callees (n + 1) blocks.flatten (outcome callees n is s) := by
        rw [← hcount₁, ← outcome_append, ← List.flatten_cons]
      rw [hout, List.flatten_cons, List.countP_append, hcount₁, hcount, List.length_cons]
      exact ⟨hu, hsaved.trans hsaved₁, Nat.add_comm _ _⟩

/-! ### Both ends -/

/-- The prologue saves the frame pointer, and the stack pointer rests. -/
theorem follow_prologue (hl : frame.Laid params scratch) (callees : Callees State) (s : State) :
    let fp := offset (s.gpr .esp) (-4)
    let b := outcome callees 0 (prologue frame) s
    Resting frame fp b ∧ b.mem.read fp 4 = littleEndian 4 (s.gpr .ebp).toNat ∧
      (prologue frame).countP isCall = 0 := by
  obtain ⟨b, hruns, hopened, -⟩ := runs_prologue hl s
  obtain ⟨rfl, hcount, -⟩ := hruns.follow callees 0
  exact ⟨⟨hopened.ebp, hopened.esp⟩, hopened.saved, hcount⟩

/-- The stack pointer rests after any number of calls, with the frame pointer of the caller still
saved, and the callee of the next call gives back what it has to. -/
theorem follow_take (hl : frame.Laid params scratch) {sites : List CallSite}
    {blocks : List (List Instr)}
    (hblocks : List.Forall₂ (fun site is => callInstrs frame site = .ok is) sites blocks)
    (hsites : ∀ site ∈ sites, site.args.length < 2 ^ 27 ∧ ∀ a ∈ site.args, a.ValidIn frame)
    {s : State}
    (hback : AllGiveBack (GivesBackAt sites) callees 0 (prologue frame ++ blocks.flatten) s)
    (k : Nat) :
    let fp := offset (s.gpr .esp) (-4)
    let u := outcome callees 0 (prologue frame ++ (blocks.take k).flatten) s
    Resting frame fp u ∧ u.mem.read fp 4 = littleEndian 4 (s.gpr .ebp).toNat ∧
      ∀ block, blocks[k]? = some block → AllGiveBack (GivesBackAt sites) callees k block u := by
  intro fp u
  obtain ⟨hb, hsaved, hcount⟩ := follow_prologue hl callees s
  have hall : ∀ (j : Nat) (site : CallSite), (sites.take k)[j]? = some site →
      sites[0 + j]? = some site := by
    intro j site hj
    rw [List.getElem?_take] at hj
    split at hj
    · rwa [Nat.zero_add]
    · cases hj
  rw [allGiveBack_append, hcount, ← List.take_append_drop k blocks, List.flatten_append,
    allGiveBack_append] at hback
  obtain ⟨hu, hkept, hcalls⟩ := follow_calls hl (List.forall₂_take k hblocks)
    (fun site h => hsites site (List.mem_of_mem_take h)) 0 hall hback.2.1 hb
  have hout : u = outcome callees 0 (blocks.take k).flatten
      (outcome callees 0 (prologue frame) s) := by
    show outcome callees 0 (prologue frame ++ (blocks.take k).flatten) s = _
    rw [outcome_append, hcount]
  rw [hout]
  refine ⟨hu, hkept.trans hsaved, ?_⟩
  intro block hblock
  obtain ⟨hlt, rfl⟩ := List.getElem?_eq_some_iff.mp hblock
  have hnext := hback.2.2
  rw [hcalls, List.length_take, Nat.min_eq_left hlt.le, List.drop_eq_getElem_cons hlt,
    List.flatten_cons, allGiveBack_append] at hnext
  simpa using hnext.1

/-- The return of the epilogue finds the pointers of the caller. -/
theorem follow_epilogue (callees : Callees State) (n : Nat) {u : State} (hu : Resting frame fp u)
    {saved : BitVec 32} (hsaved : u.mem.read fp 4 = littleEndian 4 saved.toNat) :
    ∃ ms t, moments callees n (epilogue frame) u = ms ++ [⟨.ret, t⟩] ∧
      t.gpr .esp = offset fp 4 ∧ t.gpr .ebp = saved := by
  obtain ⟨before, t, hsplit, hruns, hesp, hebp⟩ :=
    runs_epilogue (P := fun _ => False) hu.esp hsaved
  obtain ⟨hout, -⟩ := hruns.follow callees n
  refine ⟨moments callees n before u, t, ?_, hesp, hebp⟩
  rw [hsplit, moments_append, hout]
  rfl

end

/-! ### The whole trampoline -/

/-- What the first instruction of a return frame finds: the stack pointer is exactly as far below
the frame as the stack arguments and less than sixteen bytes of padding, and the stack arguments
are at the stack pointer, in argument order. -/
structure AtReturnFrame (frame : Frame) (site : CallSite) (s : State) : Prop where
  depth : ∃ pad < 16, s.gpr .esp
    = offset (s.gpr .ebp) (-(frame.size + (stackedBytes site + pad) : Nat))
  args : ∀ (k : Nat) (a : Operand), (stackPassed site)[k]? = some a →
    s.mem.read (offset (s.gpr .esp) (slotsSize ((stackPassed site).take k))) a.slotBytes
      = a.bytesIn32 frame (s.gpr .ebp) s.mem

/-- How the stack of a trampoline is kept in balance, for an entry state, the instructions of the
prologue, those of each call and those of the epilogue. -/
structure BalancedStack (frame : Frame) (sites : List CallSite) (callees : Callees State)
    (s : State) (opening : List Instr) (calls : List (List Instr)) (closing : List Instr) : Prop where
  /-- After the prologue and after each call the stack pointer is at the end of the frame. -/
  resting : ∀ k ≤ sites.length,
    let u := outcome callees 0 (opening ++ (calls.take k).flatten) s
    u.gpr .ebp = offset (s.gpr .esp) (-4) ∧ u.gpr .esp = offset (u.gpr .ebp) (-frame.size)
  /-- Each call is made once, and its return frame is built on an aligned stack, right below the
  stack arguments. -/
  called : ∀ (k : Nat) (site : CallSite) (block : List Instr), sites[k]? = some site →
    calls[k]? = some block →
    ∃ front m back,
      moments callees k block (outcome callees 0 (opening ++ (calls.take k).flatten) s)
        = front ++ m :: back ∧
      SplitAt site front m back ∧ AtReturnFrame frame site m.state ∧
      ((s.gpr .esp + 4).toNat % 16 = 0 → (m.state.gpr .esp).toNat % 16 = 0)
  /-- The return finds both pointers as they were on entry. -/
  returned : ∃ ms t, moments callees 0 (opening ++ calls.flatten ++ closing) s = ms ++ [⟨.ret, t⟩] ∧
    t.gpr .esp = s.gpr .esp ∧ t.gpr .ebp = s.gpr .ebp

theorem Ready.atReturnFrame {frame : Frame} {site : CallSite} {fp : BitVec 32} {t : State}
    (h : Ready frame site fp t) : AtReturnFrame frame site t := by
  obtain ⟨pad, hpad, hdepth, -⟩ := callDepth_spec frame site
  refine ⟨⟨pad, hpad, ?_⟩, ?_⟩
  · rw [h.esp, h.ebp, hdepth]
  · intro k a ha
    rw [h.ebp]
    exact h.slots k a ha

/-- The stack is aligned at a return frame when it was on entry. -/
theorem Ready.aligned {frame : Frame} {site : CallSite} {esp : BitVec 32} {t : State}
    (h : Ready frame site (offset esp (-4)) t) (hentry : (esp + 4).toNat % 16 = 0) :
    (t.gpr .esp).toNat % 16 = 0 := by
  obtain ⟨pad, -, -, hmod⟩ := callDepth_spec frame site
  have hesp : t.gpr .esp = offset (esp + 4) (-(8 + frame.size + callDepth frame site : Nat)) := by
    rw [h.esp, Memory.offset_offset, show esp + 4 = offset esp 4 from
      Memory.add_ofNat_eq_offset esp 4, Memory.offset_offset]
    congr 1
    omega
  rw [hesp, Memory.toNat_offset_neg_mod (by decide), hmod, Nat.add_mod_right, hentry]

/-- A trampoline keeps its stack in balance, whatever its frame, the conventions of its calls and
what their callees do.  They give back the pointers in the states in which the trampoline enters
them; what they would do in other states does not matter. -/
theorem balanced_stack {params : List ValueType} {scratch : List UInt32} {frame : Frame}
    (hframe : Frame.layout params scratch = .ok frame) {sites : List CallSite}
    (hsites : ∀ site ∈ sites, site.args.length < 2 ^ 27 ∧ ∀ a ∈ site.args, a.ValidIn frame) :
    ∃ fragments opening calls closing,
      sites.mapM (Target.ia32.callFragment frame) = .ok fragments ∧
      decodeAll (Target.ia32.prologueCode frame) = some opening ∧
      fragments.map (fun f => decodeAll f.code) = calls.map some ∧
      decodeAll (Target.ia32.epilogueCode frame) = some closing ∧
      ∀ (callees : Callees State) (s : State),
        AllGiveBack (GivesBackAt sites) callees 0 (opening ++ calls.flatten ++ closing) s →
        BalancedStack frame sites callees s opening calls closing := by
  have hl := Frame.laid_of_layout hframe
  obtain ⟨blocks, hmap⟩ := exists_mapM_eq_ok fun site h => exists_callInstrs (hsites site h).2
  have hblocks := mapM_eq_ok.mp hmap
  refine ⟨blocks.map fun is => { code := encodeAll is }, prologue frame, blocks, epilogue frame,
    ?_, ?_, ?_, ?_, ?_⟩
  · rw [mapM_eq_ok, List.forall₂_map_right_iff]
    exact hblocks.imp fun site is h => map_eq_ok.mpr ⟨is, h, rfl⟩
  · exact decodeAll_encodeAll _
  · rw [List.map_map]
    exact List.map_congr_left fun is _ => decodeAll_encodeAll is
  · exact decodeAll_encodeAll _
  intro callees s hback
  rw [allGiveBack_append] at hback
  have hrest := follow_take hl hblocks hsites hback.1
  refine ⟨?_, ?_, ?_⟩
  · intro k _
    obtain ⟨hu, -⟩ := hrest k
    exact ⟨hu.ebp, hu.esp.trans (by rw [hu.ebp])⟩
  · intro k site block hsite hblock
    obtain ⟨hargs, hvalid⟩ := hsites site (List.mem_of_getElem? hsite)
    have his : callInstrs frame site = .ok block := (List.forall₂_iff_zip.mp hblocks).2
      (List.mem_of_getElem? (List.getElem?_zip_eq_some.mpr ⟨hsite, hblock⟩))
    obtain ⟨-, -, -, front, m, back, hms, hsplit, hready⟩ :=
      follow_call hl hargs hvalid his hsite ((hrest k).2.2 block hblock) (hrest k).1
    exact ⟨front, m, back, hms, hsplit, hready.atReturnFrame, hready.aligned⟩
  · obtain ⟨hu, hsaved, -⟩ := hrest blocks.length
    rw [List.take_length] at hu hsaved
    obtain ⟨ms, t, hend, hesp, hebp⟩ := follow_epilogue callees
      (0 + (prologue frame ++ blocks.flatten).countP isCall) hu hsaved
    refine ⟨moments callees 0 (prologue frame ++ blocks.flatten) s ++ ms, t, ?_, ?_, hebp⟩
    · rw [moments_append, hend, List.append_assoc]
    · rw [hesp, Memory.offset_offset]
      exact Memory.offset_zero _

/-- One call of each convention, two of them far, with short and long arguments of every source, and
callees that only return. -/
theorem balanced_stack_four_conventions :
    let frame : Frame := ⟨[⟨.qword, 8⟩, ⟨.float, 24⟩], [⟨12, 40⟩], 24, 16⟩
    let sites : List CallSite := [
      ⟨[.forwarded .qword 0, .literal .double 5, .scratch 0], 4096, .cdecl, false⟩,
      ⟨[.literal .dword 1, .literal .qword 2], 4112, .stdcall, true⟩,
      ⟨[.literal .qword 3, .scratch 0, .forwarded .float 1], 4128, .thiscall, false⟩,
      ⟨[.literal .byte 4, .literal .double 5, .scratch 0, .literal .word 6], 4144, .fastcall, true⟩]
    let callees : Callees State := fun k s =>
      s.setGpr .esp (offset (s.gpr .esp) ((sites[k]?.map popped).getD 0))
    let s : State := ⟨fun _ => 65532, fun _ => 0, 0, 0, fun _ => 0⟩
    Frame.layout [.qword, .float] [12] = .ok frame ∧ (s.gpr .esp + 4).toNat % 16 = 0 ∧
      sites.map stackedBytes = [20, 12, 12, 12] ∧ sites.map popped = [4, 20, 16, 20] ∧
      ∃ fragments opening calls closing,
        sites.mapM (Target.ia32.callFragment frame) = .ok fragments ∧
        decodeAll (Target.ia32.prologueCode frame) = some opening ∧
        fragments.map (fun f => decodeAll f.code) = calls.map some ∧
        decodeAll (Target.ia32.epilogueCode frame) = some closing ∧
        BalancedStack frame sites callees s opening calls closing := by
  intro frame sites callees s
  have hframe : Frame.layout [.qword, .float] [12] = .ok frame := by decide
  have hsites : ∀ site ∈ sites, site.args.length < 2 ^ 27 ∧ ∀ a ∈ site.args, a.ValidIn frame := by
    decide
  have hback : ∀ n e, GivesBackAt sites n e (callees n e) := by
    intro n e site hn
    have hpopped : (sites[n]?.map popped).getD 0 = popped site := by rw [hn]; rfl
    refine ⟨?_, rfl, rfl⟩
    show offset (e.gpr .esp) ((sites[n]?.map popped).getD 0) = _
    rw [hpopped]
  obtain ⟨fragments, opening, calls, closing, hfragments, hopening, hcalls, hclosing, hkept⟩ :=
    balanced_stack hframe hsites
  exact ⟨hframe, by decide, by decide, by decide, fragments, opening, calls, closing, hfragments,
    hopening, hcalls, hclosing, hkept callees s (allGiveBack_of_forall 0 hback _ s)⟩

end Trampoline.Ia32
