/-
Trampoline/Proofs/Amd64/Prologue.lean

The code at both ends of a trampoline.

The prologue saves the frame pointer just below the return address, makes that
place the new frame pointer, and copies every entry parameter from where the
convention puts it to its home slot.  The copies go through `rax` and memory below
the frame pointer only, so a parameter that is copied late is still where it was
on entry: no argument register is `rax`, and the caller's stack lies above.

The epilogue puts back both pointers.
-/
import Mathlib
import Trampoline.Proofs.Amd64.Operands

namespace Trampoline.Amd64

open Memory (offset Between)

/-! ### Storing a parameter -/

/-- Whether an instruction stores `n` bytes of a number at an address and does nothing else. -/
structure Instr.Saves (i : Instr) (s : State) (a : BitVec 64) (n v : Nat) : Prop where
  falls : i.Falls
  stores : i.stores s = some (a, n)
  perform_eq : perform i s = { s with
    rip := offset s.rip i.encode.length
    mem := s.mem.writeNat a n v }

theorem Instr.Saves.runs {i : Instr} {s : State} {fp : BitVec 64} {z : Int} {n v : Nat}
    (h : i.Saves s (offset fp z) n v) (hn : n ≤ 16) :
    Runs (Between fp z (z + n)) [i] s (perform i s) ∧
      (∀ q, (perform i s).reg q = s.reg q) ∧
      ∀ k ≤ n, (perform i s).mem.read (offset fp z) k = littleEndian k v := by
  refine ⟨.one h.falls fun x hx => hx.between h.stores, ?_, ?_⟩
  · intro q
    rw [h.perform_eq]
    cases q <;> rfl
  · intro k hk
    rw [h.perform_eq]
    exact Memory.read_writeNat_self _ _ _ hk (hn.trans (by decide))

theorem saves_store (s : State) (r : Gpr) (disp : Int32) :
    (Instr.store .w64 r .rbp disp).Saves s (offset (s.gpr .rbp) disp.toInt) 8 (s.reg (.gpr r)) :=
  ⟨trivial, rfl, rfl⟩

theorem saves_sseSpill (s : State) (x : Xmm) (disp : Int32) :
    (Instr.sseSpill x .rbp disp).Saves s (offset (s.gpr .rbp) disp.toInt) 16 (s.reg (.xmm x)) :=
  ⟨trivial, rfl, rfl⟩

/-! ### All parameters -/

/-- The first `n` bytes of a parameter while the frame pointer is at `fp`.  `k` parameters came on
the stack before it. -/
def arriving (abi : Abi) (fp : BitVec 64) (s : State) (k n : Nat) : Placement Reg → Code
  | .reg r => littleEndian n (s.reg r)
  | .stack => s.mem.read (offset fp (16 + abi.shadowSpace + 8 * k : Nat)) n

/-- A parameter that can be stored in a slot that ends at or below `hi`: an SSE register goes to a
slot of sixteen bytes. -/
structure Storable (frame : Frame) (hi : Int) (slot : HomeSlot) (place : Placement Reg) : Prop where
  lo : -(frame.size : Int) ≤ -slot.offset.toInt
  neg : (-slot.offset).toInt = -slot.offset.toInt
  hi : -slot.offset.toInt + slot.type.homeSize.toNat ≤ hi
  float : ∀ x, place = .reg (.xmm x) → slot.type.isFloat = true
  clear : ∀ r, place = .reg r → r ∉ [Reg.gpr .rax, .gpr .rsp, .gpr .rbp, .gpr .r11]

section

variable {abi : Abi} {frame : Frame} {fp : BitVec 64}

/-- The instructions for one parameter, as `homeFrom` puts them in front. -/
def homeOne (abi : Abi) (k : Nat) (slot : HomeSlot) : Placement Reg → List Instr
  | .reg (.xmm x) => [.sseSpill x .rbp (-slot.offset)]
  | .reg (.gpr r) => [.store .w64 r .rbp (-slot.offset)]
  | .stack => [.load .w64 .rax .rbp (callerArg abi k), .store .w64 .rax .rbp (-slot.offset)]

theorem homeFrom_cons (abi : Abi) (k : Nat) (slot : HomeSlot) (place : Placement Reg)
    (rest : List (HomeSlot × Placement Reg)) :
    homeFrom abi k ((slot, place) :: rest)
      = homeOne abi k slot place ++ homeFrom abi (k + if place.isStack then 1 else 0) rest := by
  rcases place with (r | x) | - <;> rfl

theorem runs_homeOne (hlaw : abi.Lawful) {hi : Int} {slot : HomeSlot} {place : Placement Reg}
    {k : Nat} (hk : k ≤ 15) (hst : Storable frame hi slot place) {s : State}
    (hfp : s.gpr .rbp = fp) :
    ∃ t, Runs (Between fp (-frame.size) hi) (homeOne abi k slot place) s t ∧
      (∀ q, q ≠ Reg.gpr .rax → t.reg q = s.reg q) ∧
      ∀ n ≤ 8, t.mem.read (offset fp (-slot.offset.toInt)) n = arriving abi fp s k n place := by
  have hsize := (Frame.homeSize_toNat slot.type).1
  have hlo := hst.lo
  have hhi := hst.hi
  -- a store of at most as many bytes as the slot has stays inside the slot
  have hfit : ∀ {m : Nat} {is : List Instr} {t u : State}, m ≤ slot.type.homeSize.toNat →
      Runs (Between fp (-slot.offset.toInt) (-slot.offset.toInt + m)) is t u →
      Runs (Between fp (-frame.size) hi) is t u := by
    intro m is t u hm h
    exact h.widen hlo (by omega)
  rcases place with (r | x) | -
  · have hsave := saves_store s r (-slot.offset)
    rw [hst.neg, hfp] at hsave
    obtain ⟨hruns, hregs, hread⟩ := hsave.runs (by decide)
    exact ⟨_, hfit (by split at hsize <;> omega) hruns, fun q _ => hregs q,
      fun n hn => hread n hn⟩
  · have hsave := saves_sseSpill s x (-slot.offset)
    rw [hst.neg, hfp] at hsave
    obtain ⟨hruns, hregs, hread⟩ := hsave.runs (by decide)
    rw [if_pos (hst.float x rfl)] at hsize
    exact ⟨_, hfit hsize.ge hruns, fun q _ => hregs q, fun n hn => hread n (hn.trans (by decide))⟩
  · -- a stack parameter goes through `rax`
    have hshadow := hlaw.shadow_le
    have hdisp : (callerArg abi k).toInt = (16 + abi.shadowSpace + 8 * k : Nat) :=
      Int32.toInt_ofNat_of_lt (by omega)
    have hload : Quiet (Instr.load .w64 .rax .rbp (callerArg abi k)) s := ⟨trivial, rfl⟩
    have hset := s.sets_setGpr
      (offset s.rip (Instr.load .w64 .rax .rbp (callerArg abi k)).encode.length) .rax
      (s.fetch 64 8 (s.address .rbp (callerArg abi k)))
    have hsave := saves_store
      (perform (Instr.load .w64 .rax .rbp (callerArg abi k)) s) .rax (-slot.offset)
    rw [hst.neg, show (perform (Instr.load .w64 .rax .rbp (callerArg abi k)) s).gpr .rbp = fp from
      (hset.gpr_ne (by decide)).trans hfp] at hsave
    obtain ⟨hruns, hregs, hread⟩ := hsave.runs (by decide)
    refine ⟨_, (Runs.quiet hload).append (hfit (by split at hsize <;> omega) hruns),
      fun q hq => (hregs q).trans (hset.reg_ne q hq), ?_⟩
    intro n hn
    have hrax : (perform (Instr.load .w64 .rax .rbp (callerArg abi k)) s).reg (.gpr .rax)
        = s.mem.readNat (offset fp (16 + abi.shadowSpace + 8 * k : Nat)) 8 := by
      refine hset.reg_self.trans ?_
      rw [State.toNat_fetch s _ (by decide), State.address_eq, hdisp, hfp]
    rw [hread n hn, hrax, Memory.littleEndian_readNat _ _ hn]
    rfl

/-- The bytes that are stored for a parameter: an SSE register is spilled whole. -/
def storeWidth : Placement Reg → Nat
  | .reg (.xmm _) => 16
  | _ => 8

/-- The store of a parameter, in the frame at `fp`. -/
def homeStore (fp : BitVec 64) (x : HomeSlot × Placement Reg) : BitVec 64 × Nat :=
  (offset fp (-x.1.offset.toInt), storeWidth x.2)

/-- One store moves a parameter, from whatever place it comes. -/
theorem storesOf_homeOne {hi : Int} {slot : HomeSlot} {place : Placement Reg} (k : Nat)
    (hst : Storable frame hi slot place) {s : State} (hfp : s.gpr .rbp = fp) :
    storesOf (homeOne abi k slot place) s = [homeStore fp (slot, place)] := by
  have haddress : ∀ t : State, t.gpr .rbp = fp →
      t.address .rbp (-slot.offset) = offset fp (-slot.offset.toInt) := by
    intro t ht
    rw [State.address_eq, ht, hst.neg]
  rcases place with (r | x) | -
  · exact congrArg (fun a => [(a, 8)]) (haddress s hfp)
  · exact congrArg (fun a => [(a, 16)]) (haddress s hfp)
  · have hset := s.sets_setGpr
      (offset s.rip (Instr.load .w64 .rax .rbp (callerArg abi k)).encode.length) .rax
      (s.fetch 64 8 (s.address .rbp (callerArg abi k)))
    exact congrArg (fun a => [(a, 8)])
      (haddress _ ((hset.gpr_ne (by decide)).trans hfp))

/-- Every parameter is in its home slot once all have been stored. -/
theorem runs_homeFrom (hlaw : abi.Lawful) {ps : List (HomeSlot × Placement Reg)} {k : Nat}
    (hk : k + ps.length ≤ 15) {hi : Int} (hhi : hi ≤ 0)
    (hst : ∀ x ∈ ps, Storable frame hi x.1 x.2)
    (hdisjoint : ps.Pairwise fun x y => Storable frame (-x.1.offset.toInt) y.1 y.2)
    (hsize : frame.size < 2 ^ 31) {s : State} (hfp : s.gpr .rbp = fp) :
    ∃ t, Runs (Between fp (-frame.size) hi) (homeFrom abi k ps) s t ∧
      (∀ q, q ≠ Reg.gpr .rax → t.reg q = s.reg q) ∧
      storesOf (homeFrom abi k ps) s = ps.map (homeStore fp) ∧
      ∀ (j : Nat) (slot : HomeSlot) (place : Placement Reg), ps[j]? = some (slot, place) →
        ∀ n ≤ 8, t.mem.read (offset fp (-slot.offset.toInt)) n
          = arriving abi fp s (k + (ps.take j).countP (·.2.isStack)) n place := by
  induction ps generalizing k s hi with
  | nil => exact ⟨s, .nil s, fun _ _ => rfl, rfl, fun j slot place h => by simp at h⟩
  | cons p ps ih =>
      obtain ⟨slot, place⟩ := p
      rw [List.pairwise_cons] at hdisjoint
      rw [List.length_cons] at hk
      have hfirst : Storable frame hi slot place := hst (slot, place) (by simp)
      have hlo := hfirst.lo
      have hup := hfirst.hi
      have hk15 : k ≤ 15 := by omega
      obtain ⟨s₁, hruns₁, hregs₁, hread₁⟩ := runs_homeOne hlaw hk15 hfirst hfp
      have hfp₁ : s₁.gpr .rbp = fp := (State.gpr_eq_of_reg (hregs₁ _ (by decide))).trans hfp
      have hk' : k + (if place.isStack then 1 else 0) + ps.length ≤ 15 := by
        split <;> omega
      obtain ⟨t, hruns, hregs, hstores, hread⟩ := ih hk' (show -slot.offset.toInt ≤ 0 by omega)
        hdisjoint.1 hdisjoint.2 hfp₁
      rw [homeFrom_cons]
      refine ⟨t, hruns₁.append (hruns.widen (le_refl _) (by omega)),
        fun q hq => (hregs q hq).trans (hregs₁ q hq), ?_, ?_⟩
      · rw [hruns₁.storesOf_append, storesOf_homeOne k hfirst hfp, hstores]
        rfl
      · intro j slot' place' hj n hn
        cases j with
        | zero =>
            -- later slots lie below the first one
            obtain ⟨rfl, rfl⟩ : slot = slot' ∧ place = place' := by simpa using hj
            have hkeep : t.mem.read (offset fp (-slot.offset.toInt)) n
                = s₁.mem.read (offset fp (-slot.offset.toInt)) n :=
              hruns.read_offset (.inr (le_refl _)) (by omega) (by omega)
            rw [hkeep, hread₁ n hn]
            simp
        | succ j =>
            -- nothing of a later parameter was touched by storing the first one
            have hmem := List.mem_of_getElem? (l := ps) (i := j) (by simpa using hj)
            have hst' := hdisjoint.1 _ hmem
            rw [hread j slot' place' (by simpa using hj) n hn, List.take_succ_cons,
              List.countP_cons, Nat.add_assoc, Nat.add_comm (List.countP _ _)]
            cases place' with
            | reg r =>
                have hne : r ≠ .gpr .rax := fun h => hst'.clear r rfl (by simp [h])
                rw [arriving, arriving, hregs₁ r hne]
            | stack =>
                rw [arriving, arriving]
                refine hruns₁.read_offset (.inr ?_) ?_ ?_
                · omega
                · have : (ps.take j).countP (·.2.isStack) ≤ ps.length :=
                    List.countP_le_length.trans (by simp)
                  have hshadow := hlaw.shadow_le
                  split <;> omega
                · omega

/-! ### The prologue -/

variable {params : List ValueType} {scratch : List UInt32}

/-- The home slots of a laid-out frame can take their parameters. -/
theorem storable_of_laid (hl : frame.Laid params scratch) (hlaw : abi.Lawful) {i : Nat}
    {slot : HomeSlot} {place : Placement Reg} (hslot : frame.homes[i]? = some slot)
    (hplace : (abi.places params)[i]? = some place) {hi : Int}
    (hhi : -slot.offset.toInt + slot.type.homeSize.toNat ≤ hi) :
    Storable frame hi slot place := by
  have hbounds := hl.home_bounds hslot
  have hmem : ∀ r, place = .reg r →
      if slot.type.isFloat then r ∈ abi.budget.floats else r ∈ abi.budget.ints := by
    rintro r rfl
    rw [abi.getElem?_places, hl.type_of_home hslot, Option.map_some, Option.some.injEq] at hplace
    exact Budget.mem_of_place_eq_reg hplace
  refine ⟨by omega, hl.toInt_neg_home hslot, hhi, ?_, ?_⟩
  · intro x hx
    by_contra hfloat
    have h := hmem _ hx
    rw [if_neg hfloat] at h
    cases (hlaw.ints _ h).1
  · intro r hr
    have h := hmem r hr
    split at h
    · exact hlaw.notMem_of_mem (List.mem_append_right _ h)
    · exact hlaw.notMem_of_mem (List.mem_append_left _ h)

theorem getElem?_homes (hl : frame.Laid params scratch) {i : Nat} {slot : HomeSlot}
    {place : Placement Reg} :
    (homes abi frame)[i]? = some (slot, place) ↔
      frame.homes[i]? = some slot ∧ (abi.places params)[i]? = some place := by
  rw [homes, hl.types, abi.placements_classify, List.getElem?_zip_eq_some]

theorem length_homes (hl : frame.Laid params scratch) :
    (homes abi frame).length = params.length := by
  rw [homes, hl.types, abi.placements_classify, List.length_zip, hl.homes_length,
    abi.length_places, Nat.min_self]

theorem storable_homes (hl : frame.Laid params scratch) (hlaw : abi.Lawful) :
    ∀ x ∈ homes abi frame, Storable frame 0 x.1 x.2 := by
  rintro ⟨slot, place⟩ hx
  obtain ⟨i, hi⟩ := List.mem_iff_getElem?.mp hx
  obtain ⟨hslot, hplace⟩ := (getElem?_homes hl).mp hi
  refine storable_of_laid hl hlaw hslot hplace ?_
  have hoffset := (hl.home_bounds hslot).1
  omega

theorem pairwise_homes (hl : frame.Laid params scratch) (hlaw : abi.Lawful) :
    (homes abi frame).Pairwise fun x y => Storable frame (-x.1.offset.toInt) y.1 y.2 := by
  rw [List.pairwise_iff_getElem]
  intro i j hi hj hij
  rcases hx : (homes abi frame)[i] with ⟨slot, place⟩
  rcases hy : (homes abi frame)[j] with ⟨slot', place'⟩
  obtain ⟨hslot, -⟩ := (getElem?_homes hl).mp (List.getElem?_eq_some_iff.mpr ⟨hi, hx⟩)
  obtain ⟨hslot', hplace'⟩ := (getElem?_homes hl).mp (List.getElem?_eq_some_iff.mpr ⟨hj, hy⟩)
  refine storable_of_laid hl hlaw hslot' hplace' ?_
  have hbelow := hl.home_disjoint hslot hslot' hij
  show -slot'.offset.toInt + slot'.type.homeSize.toNat ≤ -slot.offset.toInt
  omega

theorem countP_take_homes (hl : frame.Laid params scratch) (i : Nat) :
    ((homes abi frame).take i).countP (·.2.isStack) = abi.stacked (params.take i) := by
  have hlen : (abi.places params).length ≤ frame.homes.length := by
    rw [abi.length_places, hl.homes_length]
  have hmap : (homes abi frame).map (·.2) = abi.places params := by
    rw [homes, hl.types, abi.placements_classify, List.map_snd_zip hlen]
  rw [Abi.stacked, ← abi.take_places, ← hmap, ← List.map_take, List.countP_map]
  rfl

/-- A parameter arrives where the convention puts it. -/
theorem arriving_eq_bytes {s t : State} {i : Nat} {place : Placement Reg} {loc : Location}
    (hplace : (abi.places params)[i]? = some place)
    (hloc : abi.location params i = some loc) {n : Nat}
    (hreg : ∀ r, place = .reg r → t.reg r = s.reg r)
    (hmem : ∀ z : Nat, 16 ≤ z → z ≤ 2 ^ 32 →
      t.mem.read (offset (offset (s.gpr .rsp) (-8)) z) n
        = s.mem.read (offset (offset (s.gpr .rsp) (-8)) z) n)
    (hshadow : abi.shadowSpace ≤ 32) (hlen : params.length ≤ 15) :
    arriving abi (offset (s.gpr .rsp) (-8)) t (abi.stacked (params.take i)) n place
      = loc.bytes abi s n := by
  rw [abi.getElem?_places] at hplace
  rw [Abi.location] at hloc
  obtain ⟨type, htype, rfl⟩ := Option.map_eq_some_iff.mp hplace
  rw [htype, Option.map_some, Option.some.injEq] at hloc
  have hle := abi.stacked_le (params.take i)
  rw [List.length_take] at hle
  cases hp : abi.place (params.take i) type with
  | reg r =>
      rw [hp] at hloc hreg
      rw [arriving, hreg r rfl, ← hloc]
      rfl
  | stack =>
      rw [hp] at hloc
      rw [arriving, hmem _ (by omega) (by omega), Memory.offset_offset, ← hloc, Location.bytes]
      congr 2
      omega

end

/-- The frame is opened: the frame pointer is saved eight bytes below the return address, where the
new frame pointer is, and the stack pointer is at the end of the frame. -/
theorem runs_opening {frame : Frame} (hsize : frame.size < 2 ^ 31) (s : State) :
    let fp := offset (s.gpr .rsp) (-8)
    let is := [.push .rbp, .mov .w64 .rbp .rsp] ++ adjustStack .sub frame.size
    ∃ t, Runs (Between fp 0 8) is s t ∧
      t.gpr .rbp = fp ∧ t.gpr .rsp = offset fp (-frame.size) ∧
      t.mem.read fp 8 = littleEndian 8 (s.gpr .rbp).toNat ∧
      (∀ q, q ≠ Reg.gpr .rsp → q ≠ .gpr .rbp → q ≠ .gpr .rax → t.reg q = s.reg q) ∧
      storesOf is s = [(fp, 8)] := by
  intro fp is
  -- the saved frame pointer
  have hpush : (Instr.push .rbp).Pushes s (s.gpr .rbp) := ⟨trivial, rfl, rfl⟩
  have hrsp : s.gpr .rsp = offset fp 8 := by
    rw [Memory.offset_offset]
    exact (Memory.offset_zero _).symm
  obtain ⟨hruns₁, hlow₁, hread₁⟩ := hpush.runs hrsp
  rw [Int.sub_self] at hruns₁ hlow₁ hread₁
  rw [Memory.offset_zero] at hread₁
  set s₁ := perform (Instr.push .rbp) s with hs₁
  -- the new frame pointer
  have hquiet : Quiet (Instr.mov .w64 .rbp .rsp) s₁ := ⟨trivial, rfl⟩
  have hset : s₁.Sets (perform (Instr.mov .w64 .rbp .rsp) s₁) (.gpr .rbp) (s₁.gpr .rsp).toNat :=
    s₁.sets_setGpr _ _ _
  set s₂ := perform (Instr.mov .w64 .rbp .rsp) s₁ with hs₂
  have hrsp₁ : s₁.gpr .rsp = fp := hlow₁.rsp.trans (Memory.offset_zero fp)
  have hrbp₂ : s₂.gpr .rbp = fp := (BitVec.eq_of_toNat_eq hset.reg_self).trans hrsp₁
  have hrsp₂ : s₂.gpr .rsp = fp := (hset.gpr_ne (by decide)).trans hrsp₁
  have hruns₂ : Runs (Between fp 0 8) [.push .rbp, .mov .w64 .rbp .rsp] s s₂ :=
    hruns₁.append (.quiet hquiet)
  -- the frame
  obtain ⟨t, hruns₃, hrsp₃, hreg₃, hmem₃⟩ := runs_adjustStack (P := Between fp 0 8) .sub hsize s₂
  refine ⟨t, hruns₂.append hruns₃, ?_, ?_, ?_, ?_, ?_⟩
  · exact (State.gpr_eq_of_reg (hreg₃ _ (by decide))).trans hrbp₂
  · rw [hrsp₃, hrsp₂]
    rfl
  · rw [hmem₃, hset.mem_eq, hread₁ 8 (le_refl 8)]
  · intro q hsp hbp hax
    rw [hreg₃ q hsp, hset.reg_ne q hbp, hlow₁.reg hsp hax]
  · rw [hruns₂.storesOf_append, storesOf_adjustStack]
    rfl

/-- What the prologue has done between `s`, where it starts, and `t`: both pointers are in place,
the caller's frame pointer is saved, and every entry parameter is in its home slot. -/
structure Opened (abi : Abi) (params : List ValueType) (frame : Frame) (s t : State) : Prop where
  rbp : t.gpr .rbp = offset (s.gpr .rsp) (-8)
  rsp : t.gpr .rsp = offset (offset (s.gpr .rsp) (-8)) (-frame.size)
  saved : t.mem.read (offset (s.gpr .rsp) (-8)) 8 = littleEndian 8 (s.gpr .rbp).toNat
  registers : ∀ q, q ≠ Reg.gpr .rsp → q ≠ .gpr .rbp → q ≠ .gpr .rax → t.reg q = s.reg q
  home : ∀ (i : Nat) (slot : HomeSlot) (loc : Location), frame.homes[i]? = some slot →
    abi.location params i = some loc → ∀ n ≤ 8,
      t.mem.read (offset (offset (s.gpr .rsp) (-8)) (-slot.offset.toInt)) n = loc.bytes abi s n

/-- The prologue opens the frame, and stores to the frame pointer and to the home slots only. -/
theorem runs_prologue {abi : Abi} {frame : Frame} {params : List ValueType} {scratch : List UInt32}
    (hl : frame.Laid params scratch) (hlaw : abi.Lawful) (s : State) :
    ∃ t, Runs (Between (offset (s.gpr .rsp) (-8)) (-frame.size) 8) (prologue abi frame) s t ∧
      Opened abi params frame s t ∧
      storesOf (prologue abi frame) s = (offset (s.gpr .rsp) (-8), 8) ::
        (homes abi frame).map (homeStore (offset (s.gpr .rsp) (-8))) := by
  have hsize := hl.size_lt
  have hparams : params.length ≤ 15 := hl.params_le
  obtain ⟨s₁, hruns₁, hrbp₁, hrsp₁, hsaved₁, hreg₁, hstores₁⟩ := runs_opening hsize s
  set fp := offset (s.gpr .rsp) (-8) with hfp
  obtain ⟨t, hruns₂, hreg₂, hstores₂, hread₂⟩ := runs_homeFrom hlaw (k := 0)
    (by rw [length_homes hl]; omega) (le_refl 0) (storable_homes hl hlaw) (pairwise_homes hl hlaw)
    hsize hrbp₁
  refine ⟨t, ?_, ⟨?_, ?_, ?_, ?_, ?_⟩, ?_⟩
  · exact (hruns₁.widen (by omega) (le_refl _)).append (hruns₂.widen (le_refl _) (by omega))
  · exact (State.gpr_eq_of_reg (hreg₂ _ (by decide))).trans hrbp₁
  · exact (State.gpr_eq_of_reg (hreg₂ _ (by decide))).trans hrsp₁
  · exact (hruns₂.read_fp (le_refl 0) (by omega)).trans hsaved₁
  · intro q hsp hbp hax
    rw [hreg₂ q hax, hreg₁ q hsp hbp hax]
  · intro i slot loc hslot hloc n hn
    have hplace : (abi.places params)[i]? = some (abi.place (params.take i) slot.type) := by
      rw [abi.getElem?_places, hl.type_of_home hslot, Option.map_some]
    rw [hread₂ i slot _ ((getElem?_homes hl).mpr ⟨hslot, hplace⟩) n hn, countP_take_homes hl,
      Nat.zero_add]
    refine arriving_eq_bytes hplace hloc ?_ ?_ hlaw.shadow_le hparams
    · intro r hr
      have hclear := (storable_of_laid hl hlaw hslot hplace (le_refl _)).clear r hr
      simp only [List.mem_cons, List.not_mem_nil, or_false, not_or] at hclear
      exact hreg₁ r hclear.2.1 hclear.2.2.1 hclear.1
    · intro z hz hz'
      exact hruns₁.read_offset (.inr (by omega)) (by omega) (by omega)
  · rw [prologue, hruns₁.storesOf_append, hstores₁, hstores₂]
    rfl

/-! ### The epilogue -/

/-- The epilogue up to its last instruction puts back the caller's frame pointer and leaves the
stack pointer at the return address. -/
theorem runs_epilogue {P : BitVec 64 → Prop} {frame : Frame} (hsize : frame.size < 2 ^ 31)
    {fp saved : BitVec 64} {s : State} (hsp : s.gpr .rsp = offset fp (-frame.size))
    (hsaved : s.mem.read fp 8 = littleEndian 8 saved.toNat) :
    ∃ before t, epilogue frame = before ++ [.ret] ∧ Runs P before s t ∧
      t.gpr .rsp = offset fp 8 ∧ t.gpr .rbp = saved ∧ t.mem = s.mem ∧
      ∀ q, q ≠ Reg.gpr .rsp → q ≠ .gpr .rbp → t.reg q = s.reg q := by
  obtain ⟨s₁, hruns₁, hrsp₁, hreg₁, hmem₁⟩ := runs_adjustStack (P := P) .add hsize s
  have hrsp : s₁.gpr .rsp = fp := by
    rw [hrsp₁, hsp, Memory.offset_offset]
    show offset fp (-(frame.size : Int) + frame.size) = fp
    rw [Int.add_left_neg, Memory.offset_zero]
  have hquiet : Quiet (Instr.pop .rbp) s₁ := ⟨trivial, rfl⟩
  have hvalue : s₁.fetch 64 8 (s₁.gpr .rsp) = saved := by
    apply BitVec.eq_of_toNat_eq
    rw [State.toNat_fetch _ _ (by decide), hrsp, hmem₁, Memory.readNat, hsaved,
      ofLittleEndian_littleEndian]
    exact Nat.mod_eq_of_lt saved.isLt
  refine ⟨_, _, ?_, hruns₁.append (.quiet hquiet), ?_, ?_, hmem₁, ?_⟩
  · rw [epilogue, List.append_assoc]
    rfl
  · show s₁.gpr .rsp + 8 = offset fp 8
    rw [hrsp]
    exact Memory.add_ofNat_eq_offset fp 8
  · exact hvalue
  · intro q hsp' hbp
    rw [← hreg₁ q hsp']
    cases q with
    | gpr r =>
        have h₁ : r ≠ .rsp := fun h => hsp' (by rw [h])
        have h₂ : r ≠ .rbp := fun h => hbp (by rw [h])
        show (if r = .rbp then _ else if r = .rsp then _ else s₁.gpr r).toNat = _
        rw [if_neg h₂, if_neg h₁]
        rfl
    | xmm x => rfl

end Trampoline.Amd64
