/-
Trampoline/Proofs/Ia32/Prologue.lean

The code at both ends of a trampoline on IA-32, and what it does to the pointers.

The prologue saves the frame pointer just below the return address and makes that
place the new frame pointer.  It then copies the parameters to their home slots,
through `eax` or `xmm0`: every store of a copy stays inside its own slot, so the
saved frame pointer, both pointers and the slots that were filled before are as they
were.

The epilogue puts back both pointers.
-/
import Mathlib
import Trampoline.Proofs.Ia32.Operands

namespace Trampoline.Ia32

open Memory (offset Between)

/-! ### Copying parameters -/

/-- Whether an instruction stores `n` bytes of a number at a displacement from the frame pointer
and changes no general-purpose register. -/
structure Instr.SavesAt (i : Instr) (s : State) (disp : Int32) (n value : Nat) : Prop where
  falls : i.Falls
  stores : i.stores s = some (s.address .ebp disp, n)
  gpr_eq : (perform i s).gpr = s.gpr
  mem_eq : (perform i s).mem = s.mem.writeNat (s.address .ebp disp) n value

theorem Instr.savesAt_store (s : State) (src : Gpr) (disp : Int32) :
    (Instr.store src .ebp disp).SavesAt s disp 4 (s.gpr src).toNat :=
  ⟨trivial, rfl, rfl, rfl⟩

theorem Instr.savesAt_sseStore (s : State) (p : Precision) (src : Xmm) (disp : Int32) :
    (Instr.sseStore p src .ebp disp).SavesAt s disp p.bytes (s.xmm src).toNat :=
  ⟨trivial, rfl, rfl, rfl⟩

section

variable {fp : BitVec 32} {s : State}

/-- One value on its way from a place in memory to another. -/
theorem runs_copy {i j : Instr} {source disp : Int32} {n value : Nat} (hi : Quiet i s)
    (hgpr : ∀ r, r ≠ .eax → (perform i s).gpr r = s.gpr r)
    (hj : j.SavesAt (perform i s) disp n value)
    (hvalue : value = s.mem.readNat (s.address .ebp source) n) (hn : n ≤ 8)
    (hfp : s.gpr .ebp = fp) :
    ∃ t, Runs (Between fp disp.toInt (disp.toInt + n)) [i, j] s t ∧
      (∀ r, r ≠ .eax → t.gpr r = s.gpr r) ∧
      t.mem.read (offset fp disp.toInt) n = s.mem.read (offset fp source.toInt) n := by
  have haddress : (perform i s).address .ebp disp = offset fp disp.toInt := by
    rw [State.address_eq, hgpr _ (by decide), hfp]
  have hstores : j.stores (perform i s) = some (offset fp disp.toInt, n) := by
    rw [hj.stores, haddress]
  refine ⟨_, (Runs.quiet hi).append
    (.one hj.falls fun x hx => hx.between hstores), ?_, ?_⟩
  · intro r hr
    rw [hj.gpr_eq, hgpr r hr]
  · rw [hj.mem_eq, haddress, Memory.read_writeNat_self _ _ _ (le_refl n) (by omega), hvalue,
      Memory.littleEndian_readNat _ _ (le_refl n), State.address_eq, hfp]

theorem runs_copyWord (source disp : Int32) (hfp : s.gpr .ebp = fp) :
    ∃ t, Runs (Between fp disp.toInt (disp.toInt + 4))
        [.load .eax .ebp source, .store .eax .ebp disp] s t ∧
      (∀ r, r ≠ .eax → t.gpr r = s.gpr r) ∧
      t.mem.read (offset fp disp.toInt) 4 = s.mem.read (offset fp source.toInt) 4 := by
  have hset : s.Sets (perform (Instr.load .eax .ebp source) s) .eax
      (s.fetch 32 4 (s.address .ebp source)) := s.sets_setGpr _ _ _
  refine runs_copy ⟨trivial, rfl⟩ hset.gpr_ne (Instr.savesAt_store _ _ _) ?_
    (by decide) hfp
  rw [hset.gpr_self, State.toNat_fetch s _ (le_refl 4)]

theorem runs_copyFloat (p : Precision) (source disp : Int32) (hfp : s.gpr .ebp = fp) :
    ∃ t, Runs (Between fp disp.toInt (disp.toInt + p.bytes))
        [.sseLoad p .xmm0 .ebp source, .sseStore p .xmm0 .ebp disp] s t ∧
      (∀ r, r ≠ .eax → t.gpr r = s.gpr r) ∧
      t.mem.read (offset fp disp.toInt) p.bytes = s.mem.read (offset fp source.toInt) p.bytes := by
  have hbytes : p.bytes ≤ 8 := by cases p <;> decide
  have hxmm : (perform (Instr.sseLoad p .xmm0 .ebp source) s).xmm .xmm0
      = s.fetch 128 p.bytes (s.address .ebp source) := rfl
  refine runs_copy ⟨trivial, rfl⟩ (fun _ _ => rfl) (Instr.savesAt_sseStore _ _ _ _) ?_
    hbytes hfp
  have hlt := (Memory.readNat_lt s.mem (s.address .ebp source) p.bytes).trans_le
    (Nat.pow_le_pow_right (by decide) hbytes)
  rw [hxmm, State.fetch, BitVec.toNat_ofNat, Nat.mod_eq_of_lt (hlt.trans (by decide))]

variable {params : List ValueType} {scratch : List UInt32} {frame : Frame}

/-- Storing a parameter copies its bytes from the caller's stack to the start of its home slot,
writes inside the slot only, and keeps the pointers. -/
theorem runs_homeSlot (hl : frame.Laid params scratch) {i : Nat} {slot : HomeSlot}
    (hslot : frame.homes[i]? = some slot) {source : Int32} (hlo : 0 ≤ source.toInt)
    (hhi : source.toInt < 2 ^ 30) (hfp : s.gpr .ebp = fp) :
    ∃ t, Runs (Between fp (-slot.offset.toInt)
          (-slot.offset.toInt + slot.type.homeSize.toNat)) (homeSlot slot source) s t ∧
      (∀ r, r ≠ .eax → t.gpr r = s.gpr r) ∧
      t.mem.read (offset fp (-slot.offset.toInt)) slot.type.stackSize32
        = s.mem.read (offset fp source.toInt) slot.type.stackSize32 := by
  obtain ⟨hoffset, -, hsize⟩ := hl.home_bounds hslot
  have hlt := hl.size_lt
  have hneg := hl.toInt_neg_home hslot
  have hhome := (Frame.homeSize_toNat slot.type).1
  rw [homeSlot]
  by_cases hfloat : slot.type.isFloat
  · have hbytes : (Precision.ofType slot.type).bytes = slot.type.stackSize32 ∧
        slot.type.stackSize32 ≤ 8 := by
      revert hfloat
      cases slot.type <;> decide
    rw [if_pos hfloat] at hhome ⊢
    obtain ⟨t, hruns, hgpr, hread⟩ :=
      runs_copyFloat (Precision.ofType slot.type) source (-slot.offset) hfp
    rw [hneg] at hruns hread
    rw [hbytes.1] at hread
    exact ⟨t, hruns.widen (le_refl _) (by omega), hgpr, hread⟩
  · rw [if_neg hfloat] at hhome ⊢
    obtain ⟨t, hruns, hgpr, hread⟩ := runs_copyWord source (-slot.offset) hfp
    rw [hneg] at hruns hread
    have hlow : Runs (Between fp (-slot.offset.toInt)
        (-slot.offset.toInt + slot.type.homeSize.toNat)) _ s t :=
      hruns.widen (le_refl _) (by omega)
    dsimp only
    by_cases hlong : isLong slot.type
    · -- the upper half of a long parameter
      have height : slot.type.stackSize32 = 4 + 4 := by simpa [isLong] using hlong
      have hneg' := hl.toInt_neg_home_add_four hslot
      have hsource : (source + 4).toInt = source.toInt + 4 := by
        rw [Int32.toInt_add, show (4 : Int32).toInt = 4 from rfl]
        exact Int.bmod_eq_of_le (by omega) (by omega)
      obtain ⟨u, hruns', hgpr', hread'⟩ := runs_copyWord (source + 4) (-slot.offset + 4)
        ((hgpr _ (by decide)).trans hfp)
      rw [hneg'] at hruns' hread'
      rw [hsource] at hread'
      rw [if_pos hlong]
      refine ⟨u, hlow.append (hruns'.widen (by omega) (by omega)),
        fun r hr => (hgpr' r hr).trans (hgpr r hr), ?_⟩
      rw [height, Memory.read_add, Memory.read_add, Memory.add_ofNat_eq_offset,
        Memory.add_ofNat_eq_offset, Memory.offset_offset, Memory.offset_offset]
      congr 1
      · exact (hruns'.read_offset (.inl (by omega)) (by omega) (by omega)).trans hread
      · refine hread'.trans ?_
        exact hruns.read_offset (.inr (by omega)) (by omega) (by omega)
    · have hfour : slot.type.stackSize32 = 4 := by
        revert hlong
        cases slot.type <;> decide
      rw [if_neg hlong, hfour]
      exact ⟨t, hlow, hgpr, hread⟩

/-- The stores of a parameter, in the frame at `fp`: a long integer takes two. -/
def homeStores (fp : BitVec 32) (slot : HomeSlot) : List (BitVec 32 × Nat) :=
  if slot.type.isFloat then
    [(offset fp (-slot.offset.toInt), (Precision.ofType slot.type).bytes)]
  else
    (offset fp (-slot.offset.toInt), 4) ::
      if isLong slot.type then [(offset fp (-slot.offset.toInt + 4), 4)] else []

theorem storesOf_homeSlot (hl : frame.Laid params scratch) {i : Nat} {slot : HomeSlot}
    (hslot : frame.homes[i]? = some slot) (source : Int32) (hfp : s.gpr .ebp = fp) :
    storesOf (homeSlot slot source) s = homeStores fp slot := by
  have hlow : s.address .ebp (-slot.offset) = offset fp (-slot.offset.toInt) := by
    rw [State.address_eq, hfp, hl.toInt_neg_home hslot]
  have hhigh : s.address .ebp (-slot.offset + 4) = offset fp (-slot.offset.toInt + 4) := by
    rw [State.address_eq, hfp, hl.toInt_neg_home_add_four hslot]
  rw [homeSlot, homeStores]
  by_cases hfloat : slot.type.isFloat
  · rw [if_pos hfloat, if_pos hfloat, ← hlow]
    rfl
  · rw [if_neg hfloat, if_neg hfloat, ← hlow, ← hhigh]
    dsimp only
    by_cases hlong : isLong slot.type
    · rw [if_pos hlong, if_pos hlong]
      rfl
    · rw [if_neg hlong, if_neg hlong]
      rfl

/-- A value takes at most eight bytes on the stack, and fits its home slot with them. -/
theorem stackSize32_le (t : ValueType) :
    t.stackSize32 ≤ 8 ∧ t.stackSize32 ≤ t.homeSize.toNat := by
  cases t <;> decide

/-- Storing the parameters from number `k` on, wherever above the frame they come in: each home
slot gets the bytes of its parameter, and nothing is written above the first of these slots. -/
theorem runs_homes (hl : frame.Laid params scratch) {k : Nat} {ps : List (HomeSlot × Int32)}
    (hslots : ps.map (·.1) = frame.homes.drop k)
    (hsources : ∀ p ∈ ps, 0 ≤ p.2.toInt ∧ p.2.toInt < 2 ^ 30) (hfp : s.gpr .ebp = fp) :
    ∃ t, Runs (Between fp (-frame.size) (-Frame.homeTotal (params.take k)))
        (ps.flatMap fun p => homeSlot p.1 p.2) s t ∧
      (∀ r, r ≠ .eax → t.gpr r = s.gpr r) ∧
      storesOf (ps.flatMap fun p => homeSlot p.1 p.2) s
        = ((ps.map (·.1)).map (homeStores fp)).flatten ∧
      ∀ p ∈ ps, t.mem.read (offset fp (-p.1.offset.toInt)) p.1.type.stackSize32
        = s.mem.read (offset fp p.2.toInt) p.1.type.stackSize32 := by
  induction ps generalizing k s with
  | nil => exact ⟨s, .nil s, fun _ _ => rfl, rfl, fun p hp => by cases hp⟩
  | cons p ps ih =>
      rw [List.map_cons] at hslots
      have hslot : frame.homes[k]? = some p.1 := by
        rw [← List.head?_drop, ← hslots, List.head?_cons]
      have hrest : ps.map (·.1) = frame.homes.drop (k + 1) := by
        rw [← List.tail_drop, ← hslots, List.tail_cons]
      have hlt := hl.size_lt
      have hoffset := hl.home hslot
      obtain ⟨htop, -, hsize⟩ := hl.home_bounds hslot
      obtain ⟨height, hfits⟩ := stackSize32_le p.1.type
      obtain ⟨hlo, hhi⟩ := hsources p (by simp)
      obtain ⟨s₁, hruns₁, hgpr₁, hread₁⟩ := runs_homeSlot hl hslot hlo hhi hfp
      obtain ⟨t, hruns, hgpr, hstores, hread⟩ := ih hrest (fun q hq => hsources q (by simp [hq]))
        ((hgpr₁ _ (by decide)).trans hfp)
      have hfirst : Runs (Between fp (-frame.size) (-Frame.homeTotal (params.take k)))
          (homeSlot p.1 p.2) s s₁ := hruns₁.widen (by omega) (by omega)
      have hothers : Runs (Between fp (-frame.size) (-Frame.homeTotal (params.take k)))
          (ps.flatMap fun p => homeSlot p.1 p.2) s₁ t := hruns.widen (le_refl _) (by omega)
      refine ⟨t, hfirst.append hothers, fun r hr => (hgpr r hr).trans (hgpr₁ r hr), ?_, ?_⟩
      · rw [List.flatMap_cons, hfirst.storesOf_append, storesOf_homeSlot hl hslot _ hfp, hstores]
        rfl
      · intro q hq
        rcases List.mem_cons.mp hq with rfl | hq
        · -- the slots that follow lie below this one
          exact (hruns.read_offset (.inr (by omega)) (by omega) (by omega)).trans hread₁
        · -- the parameters that follow lie above the frame
          obtain ⟨hlo', hhi'⟩ := hsources q (by simp [hq])
          obtain ⟨height', -⟩ := stackSize32_le q.1.type
          rw [hread q hq]
          exact hfirst.read_offset (.inr (by omega)) (by omega) (by omega)

/-! ### Where parameters come in -/

/-- The bytes that values take on the stack of a call. -/
def stackTotal (types : List ValueType) : Nat := (types.map (·.stackSize32)).sum

@[simp] theorem stackTotal_nil : stackTotal [] = 0 := rfl

@[simp] theorem stackTotal_cons (t : ValueType) (ts : List ValueType) :
    stackTotal (t :: ts) = t.stackSize32 + stackTotal ts := rfl

theorem stackTotal_take_le (ts : List ValueType) (i : Nat) :
    stackTotal (ts.take i) ≤ 8 * ts.length := by
  induction ts generalizing i with
  | nil => simp
  | cons t ts ih =>
      cases i with
      | zero => simp
      | succ i =>
          have ht := (stackSize32_le t).1
          have hts := ih i
          rw [List.take_succ_cons, stackTotal_cons, List.length_cons]
          omega

theorem map_homesFrom (source : Int32) (slots : List HomeSlot) :
    (homesFrom source slots).map (·.1) = slots := by
  induction slots generalizing source with
  | nil => rfl
  | cons slot slots ih => rw [homesFrom, List.map_cons, ih]

/-- The running sum of the prologue is the bytes of the parameters before. -/
theorem toInt_homesFrom {source d : Int32} {slots : List HomeSlot} (hlo : 0 ≤ source.toInt)
    (hhi : source.toInt + 8 * slots.length < 2 ^ 30) {i : Nat} {slot : HomeSlot}
    (h : (homesFrom source slots)[i]? = some (slot, d)) :
    d.toInt = source.toInt + stackTotal ((slots.map (·.type)).take i) := by
  induction slots generalizing source i with
  | nil => cases h
  | cons first slots ih =>
      obtain ⟨height, -⟩ := stackSize32_le first.type
      rw [List.length_cons] at hhi
      rw [homesFrom] at h
      cases i with
      | zero =>
          obtain ⟨-, rfl⟩ := Prod.mk.inj (Option.some.inj h)
          simp
      | succ i =>
          have hnext : (source + Int32.ofNat first.type.stackSize32).toInt
              = source.toInt + first.type.stackSize32 := by
            rw [Int32.toInt_add, Int32.toInt_ofNat_of_lt (by omega)]
            exact Int.bmod_eq_of_le (by omega) (by omega)
          rw [ih (by omega) (by omega) h, hnext, List.map_cons, List.take_succ_cons,
            stackTotal_cons]
          push_cast
          ring

/-- A parameter comes in above the return address, behind the parameters before it. -/
theorem toInt_homes (hl : frame.Laid params scratch) {i : Nat} {slot : HomeSlot} {d : Int32}
    (h : (homes frame)[i]? = some (slot, d)) :
    frame.homes[i]? = some slot ∧ d.toInt = 8 + stackTotal (params.take i) ∧ d.toInt ≤ 128 := by
  have height : (8 : Int32).toInt = 8 := rfl
  have hcount : frame.homes.length ≤ 15 := hl.homes_length ▸ hl.params_le
  have hparams : params.length ≤ 15 := hl.params_le
  have htotal := stackTotal_take_le params i
  have hd := toInt_homesFrom (by decide) (by rw [height]; omega) h
  rw [hl.types, height] at hd
  refine ⟨?_, hd, by omega⟩
  rw [← map_homesFrom 8 frame.homes, List.getElem?_map]
  exact congrArg (Option.map (·.1)) h

/-! ### Both ends -/

/-- The frame is opened: the frame pointer is saved four bytes below the return address, where the
new frame pointer is, and the stack pointer is at the end of the frame. -/
theorem runs_opening (frame : Frame) (s : State) :
    let fp := offset (s.gpr .esp) (-4)
    let is := [.push .ebp, .mov .ebp .esp] ++ adjustStack .sub frame.size
    ∃ t, Runs (Between fp 0 4) is s t ∧
      t.gpr .ebp = fp ∧ t.gpr .esp = offset fp (-frame.size) ∧
      t.mem.read fp 4 = littleEndian 4 (s.gpr .ebp).toNat ∧ storesOf is s = [(fp, 4)] := by
  intro fp is
  -- the saved frame pointer
  have hpush : (Instr.push .ebp).Pushes s (s.gpr .ebp) := ⟨rfl, trivial, rfl, rfl⟩
  have hesp : s.gpr .esp = offset fp 4 := by
    rw [Memory.offset_offset]
    exact (Memory.offset_zero _).symm
  obtain ⟨hruns₁, hlow₁, hread₁⟩ := hpush.runs hesp
  rw [Int.sub_self] at hruns₁ hlow₁ hread₁
  rw [Memory.offset_zero] at hread₁
  set s₁ := perform (Instr.push .ebp) s with hs₁
  -- the new frame pointer
  have hquiet : Quiet (Instr.mov .ebp .esp) s₁ := ⟨trivial, rfl⟩
  have hset : s₁.Sets (perform (Instr.mov .ebp .esp) s₁) .ebp (s₁.gpr .esp) :=
    s₁.sets_setGpr _ _ _
  set s₂ := perform (Instr.mov .ebp .esp) s₁ with hs₂
  have hesp₁ : s₁.gpr .esp = fp := hlow₁.esp.trans (Memory.offset_zero fp)
  have hruns₂ : Runs (Between fp 0 4) [.push .ebp, .mov .ebp .esp] s s₂ :=
    hruns₁.append (.quiet hquiet)
  -- the frame
  obtain ⟨t, hruns₃, hesp₃, hgpr₃, hmem₃⟩ := runs_adjustStack (P := Between fp 0 4)
    .sub frame.size s₂
  refine ⟨t, hruns₂.append hruns₃, ?_, ?_, ?_, ?_⟩
  · rw [hgpr₃ _ (by decide), hset.gpr_self, hesp₁]
  · rw [hesp₃, hset.gpr_ne _ (by decide), hesp₁]
    rfl
  · rw [hmem₃, hset.mem_eq, hread₁ 4 (le_refl 4)]
  · rw [hruns₂.storesOf_append, storesOf_adjustStack]
    rfl

/-- What the prologue has done between `s`, where it starts, and `t`: both pointers are in place,
the caller's frame pointer is saved, and every parameter, as it came in above the return address,
is in its home slot. -/
structure Opened (frame : Frame) (s t : State) : Prop where
  ebp : t.gpr .ebp = offset (s.gpr .esp) (-4)
  esp : t.gpr .esp = offset (offset (s.gpr .esp) (-4)) (-frame.size)
  saved : t.mem.read (offset (s.gpr .esp) (-4)) 4 = littleEndian 4 (s.gpr .ebp).toNat
  home : ∀ (i : Nat) (slot : HomeSlot) (d : Int32), (homes frame)[i]? = some (slot, d) →
    t.mem.read (offset (offset (s.gpr .esp) (-4)) (-slot.offset.toInt)) slot.type.stackSize32
      = s.mem.read (offset (offset (s.gpr .esp) (-4)) d.toInt) slot.type.stackSize32

/-- The prologue opens the frame, and stores to the frame pointer and to the home slots only. -/
theorem runs_prologue (hl : frame.Laid params scratch) (s : State) :
    ∃ t, Runs (Between (offset (s.gpr .esp) (-4)) (-frame.size) 4) (prologue frame) s t ∧
      Opened frame s t ∧
      storesOf (prologue frame) s = (offset (s.gpr .esp) (-4), 4) ::
        (frame.homes.map (homeStores (offset (s.gpr .esp) (-4)))).flatten := by
  have hsize := hl.size_lt
  obtain ⟨s₁, hruns₁, hebp₁, hesp₁, hsaved₁, hstores₁⟩ := runs_opening frame s
  set fp := offset (s.gpr .esp) (-4) with hfp
  -- the parameters
  have hsources : ∀ p ∈ homes frame, 0 ≤ p.2.toInt ∧ p.2.toInt < 2 ^ 30 := by
    intro p hp
    obtain ⟨i, hi⟩ := List.mem_iff_getElem?.mp hp
    obtain ⟨-, hd, hle⟩ := toInt_homes hl hi
    omega
  obtain ⟨t, hruns₂, hgpr₂, hstores₂, hread₂⟩ := runs_homes hl (k := 0)
    (map_homesFrom 8 frame.homes) hsources hebp₁
  rw [List.take_zero, Frame.homeTotal_nil] at hruns₂
  rw [map_homesFrom] at hstores₂
  refine ⟨t, ?_, ⟨?_, ?_, ?_, ?_⟩, ?_⟩
  · exact (hruns₁.widen (by omega) (le_refl _)).append (hruns₂.widen (le_refl _) (by omega))
  · exact (hgpr₂ _ (by decide)).trans hebp₁
  · exact (hgpr₂ _ (by decide)).trans hesp₁
  · exact (hruns₂.read_fp (le_refl 0) (by omega)).trans hsaved₁
  · intro i slot d hslot
    obtain ⟨-, hd, hle⟩ := toInt_homes hl hslot
    have hsize := (stackSize32_le slot.type).1
    have hkeep := hruns₁.read_offset (z := d.toInt) (n := slot.type.stackSize32)
      (.inr (by omega)) (by omega) (by omega)
    exact (hread₂ _ (List.mem_of_getElem? hslot)).trans hkeep
  · rw [← hstores₂, ← List.singleton_append, ← hstores₁]
    exact hruns₁.storesOf_append _

/-- The epilogue up to its last instruction stores nothing, puts back the caller's frame pointer
and leaves the stack pointer at the return address. -/
theorem runs_epilogue {P : BitVec 32 → Prop} {saved : BitVec 32}
    (hsp : s.gpr .esp = offset fp (-frame.size))
    (hsaved : s.mem.read fp 4 = littleEndian 4 saved.toNat) :
    ∃ before t, epilogue frame = before ++ [.ret] ∧ Runs P before s t ∧
      t.gpr .esp = offset fp 4 ∧ t.gpr .ebp = saved := by
  obtain ⟨s₁, hruns₁, hesp₁, -, hmem₁⟩ := runs_adjustStack (P := P) .add frame.size s
  have hesp : s₁.gpr .esp = fp := by
    rw [hesp₁, hsp, Memory.offset_offset]
    show offset fp (-(frame.size : Int) + frame.size) = fp
    rw [Int.add_left_neg, Memory.offset_zero]
  have hquiet : Quiet (Instr.pop .ebp) s₁ := ⟨trivial, rfl⟩
  have hvalue : s₁.fetch 32 4 (s₁.gpr .esp) = saved := by
    apply BitVec.eq_of_toNat_eq
    rw [State.toNat_fetch _ _ (by decide), hesp, hmem₁, Memory.readNat, hsaved,
      ofLittleEndian_littleEndian]
    exact Nat.mod_eq_of_lt saved.isLt
  refine ⟨_, _, ?_, hruns₁.append (.quiet hquiet), ?_, hvalue⟩
  · rw [epilogue, List.append_assoc]
    rfl
  · show s₁.gpr .esp + 4 = offset fp 4
    rw [hesp]
    exact Memory.add_ofNat_eq_offset fp 4

end

end Trampoline.Ia32
