/-
Trampoline/Proofs/Memory.lean

Laws of numbers as bytes and of byte-addressed memory.

A number of `w` bytes is read back modulo `256 ^ w`, and its low bytes are the
first ones, so a narrow value inside a wide register or slot is a prefix of
its bytes (`take_littleEndian`).

What a store leaves behind is said by two laws: the stored bytes are found at
their place (`read_write_self`), and everything apart from them is as before
(`read_write_of_apart`).  Places on a stack are given by their signed distance
from one address, `offset a z`; two of them are equal only when the distances
are equal (`offset_inj`), as long as the distances span less than the whole
memory.  That a stack does not wrap around the end of memory is asked only where
addresses are compared as numbers (`toNat_offset`).
-/
import Mathlib
import Trampoline.Isa.Opcode
import Trampoline.Memory

namespace Trampoline

/-! ### Little-endian numbers -/

theorem ofLittleEndian_littleEndian (width n : Nat) :
    ofLittleEndian (littleEndian width n) = n % 256 ^ width := by
  induction width generalizing n with
  | zero => simp [littleEndian, ofLittleEndian, Nat.mod_one]
  | succ width ih =>
      rw [littleEndian, ofLittleEndian, ih, pow_succ', Nat.mod_mul]
      rfl

theorem ofLittleEndian_lt (c : Code) : ofLittleEndian c < 256 ^ c.length := by
  induction c with
  | nil => simp [ofLittleEndian]
  | cons b bs ih =>
      have hb : b.toNat < 256 := b.toNat_lt
      rw [ofLittleEndian, List.length_cons, pow_succ]
      omega

theorem littleEndian_ofLittleEndian (c : Code) :
    littleEndian c.length (ofLittleEndian c) = c := by
  induction c with
  | nil => rfl
  | cons b bs ih =>
      have hb : b.toNat < 256 := b.toNat_lt
      have hdiv : (b.toNat + 256 * ofLittleEndian bs) / 256 = ofLittleEndian bs := by omega
      have hmod : UInt8.ofNat (b.toNat + 256 * ofLittleEndian bs) = b := by
        apply UInt8.toNat_inj.mp
        rw [UInt8.toNat_ofNat']
        omega
      rw [List.length_cons, ofLittleEndian, littleEndian, hdiv, hmod, ih]

/-- The low bytes of a number come first. -/
theorem take_littleEndian {k width : Nat} (h : k ≤ width) (n : Nat) :
    (littleEndian width n).take k = littleEndian k n := by
  induction k generalizing width n with
  | zero => rfl
  | succ k ih =>
      obtain ⟨width, rfl⟩ : ∃ v, width = v + 1 := ⟨width - 1, by omega⟩
      rw [littleEndian, List.take_succ_cons, ih (by omega), littleEndian]

theorem littleEndian_add (k width n : Nat) :
    littleEndian (k + width) n = littleEndian k n ++ littleEndian width (n / 256 ^ k) := by
  induction k generalizing n with
  | zero => simp [littleEndian]
  | succ k ih =>
      rw [Nat.succ_add, littleEndian, ih, littleEndian, Nat.div_div_eq_div_mul, ← pow_succ',
        List.cons_append]

/-- Only the low bytes of a number count. -/
theorem littleEndian_mod {k width : Nat} (h : k ≤ width) (n : Nat) :
    littleEndian k (n % 256 ^ width) = littleEndian k n := by
  have hback := littleEndian_ofLittleEndian (littleEndian width n)
  rw [length_littleEndian, ofLittleEndian_littleEndian] at hback
  rw [← take_littleEndian h, hback, take_littleEndian h]

/-- The low bytes of a number that was read from bytes are the first of these. -/
theorem littleEndian_ofLittleEndian_take {k : Nat} (c : Code) (h : k ≤ c.length) :
    littleEndian k (ofLittleEndian c) = c.take k := by
  rw [← take_littleEndian h, littleEndian_ofLittleEndian]

namespace Memory

variable {w : Nat}

/-! ### Reading -/

@[simp] theorem length_read (m : Memory w) (a : BitVec w) (n : Nat) : (m.read a n).length = n := by
  simp [read]

theorem getElem?_read (m : Memory w) (a : BitVec w) {n i : Nat} (h : i < n) :
    (m.read a n)[i]? = some (m (a + BitVec.ofNat w i)) := by
  simp [read, h]

theorem read_congr {m m' : Memory w} {a : BitVec w} {n : Nat}
    (h : ∀ i < n, m (a + BitVec.ofNat w i) = m' (a + BitVec.ofNat w i)) :
    m.read a n = m'.read a n := by
  refine List.map_congr_left fun i hi => ?_
  exact h i (List.mem_range.mp hi)

theorem take_read (m : Memory w) (a : BitVec w) {k n : Nat} (h : k ≤ n) :
    (m.read a n).take k = m.read a k := by
  rw [read, ← List.map_take, List.take_range, Nat.min_eq_left h, read]

theorem read_add (m : Memory w) (a : BitVec w) (n k : Nat) :
    m.read a (n + k) = m.read a n ++ m.read (a + BitVec.ofNat w n) k := by
  rw [read, List.range_add, List.map_append, List.map_map]
  congr 1
  refine List.map_congr_left fun i _ => ?_
  show m (a + BitVec.ofNat w (n + i)) = m (a + BitVec.ofNat w n + BitVec.ofNat w i)
  rw [BitVec.ofNat_add, BitVec.add_assoc]

/-- The bytes found at an address determine those found a little further on. -/
theorem read_of_append {m : Memory w} {a : BitVec w} {c d : Code}
    (h : m.read a (c ++ d).length = c ++ d) :
    m.read a c.length = c ∧ m.read (a + BitVec.ofNat w c.length) d.length = d := by
  rw [List.length_append, read_add] at h
  exact List.append_inj h (length_read _ _ _)

/-- The low bytes of a number in memory are the first bytes there. -/
theorem littleEndian_readNat (m : Memory w) (a : BitVec w) {k n : Nat} (h : k ≤ n) :
    littleEndian k (m.readNat a n) = m.read a k := by
  rw [readNat, littleEndian_ofLittleEndian_take _ (by simpa using h), take_read m a h]

theorem readNat_lt (m : Memory w) (a : BitVec w) (n : Nat) : m.readNat a n < 256 ^ n := by
  have h := ofLittleEndian_lt (m.read a n)
  rwa [length_read] at h

/-! ### Writing -/

theorem write_cons (m : Memory w) (a : BitVec w) (b : UInt8) (bs : Code) (x : BitVec w) :
    m.write a (b :: bs) x = if x = a then b else m.write (a + 1) bs x := rfl

theorem write_of_notMem (m : Memory w) {a x : BitVec w} {bs : Code}
    (h : ∀ i < bs.length, x ≠ a + BitVec.ofNat w i) : m.write a bs x = m x := by
  induction bs generalizing a with
  | nil => rfl
  | cons b bs ih =>
      have h0 : x ≠ a := by simpa using h 0 (by simp)
      rw [write_cons, if_neg h0]
      refine ih fun i hi => ?_
      have hi' := h (i + 1) (by simpa using hi)
      rwa [Nat.add_comm, BitVec.ofNat_add, ← BitVec.add_assoc] at hi'

theorem write_apply (m : Memory w) (a : BitVec w) {bs : Code} {i : Nat} (hi : i < bs.length)
    (hw : bs.length ≤ 2 ^ w) : m.write a bs (a + BitVec.ofNat w i) = bs[i] := by
  induction bs generalizing a i with
  | nil => simp at hi
  | cons b bs ih =>
      rw [List.length_cons] at hi hw
      cases i with
      | zero => simp [write]
      | succ i =>
          have hne : a + BitVec.ofNat w (i + 1) ≠ a := by
            intro he
            have hz : BitVec.ofNat w (i + 1) = 0#w := by
              have := congrArg (fun x => x - a) he
              simpa [BitVec.add_comm a, BitVec.add_sub_cancel] using this
            have hn := congrArg BitVec.toNat hz
            rw [BitVec.toNat_ofNat, Nat.mod_eq_of_lt (by omega)] at hn
            simp at hn
          have hnext : a + BitVec.ofNat w (i + 1) = a + 1 + BitVec.ofNat w i := by
            rw [Nat.add_comm, BitVec.ofNat_add, ← BitVec.add_assoc]
            rfl
          rw [write_cons, if_neg hne, hnext, List.getElem_cons_succ]
          exact ih (a + 1) (by omega) (by omega)

/-- What was stored is found at its place, up to any length. -/
theorem read_write_self (m : Memory w) (a : BitVec w) {bs : Code} {k : Nat} (hk : k ≤ bs.length)
    (hw : bs.length ≤ 2 ^ w) : (m.write a bs).read a k = bs.take k := by
  refine List.ext_getElem (by simp [hk]) fun i h₁ h₂ => ?_
  rw [length_read] at h₁
  simp only [read, List.getElem_map, List.getElem_range, List.getElem_take]
  exact write_apply m a (by omega) hw

/-- Two stretches of memory without a common byte. -/
def Apart (a : BitVec w) (n : Nat) (b : BitVec w) (k : Nat) : Prop :=
  ∀ i < n, ∀ j < k, a + BitVec.ofNat w i ≠ b + BitVec.ofNat w j

/-- A store leaves the bytes apart from it as they were. -/
theorem read_write_of_apart (m : Memory w) {a b : BitVec w} {n : Nat} {bs : Code}
    (h : Apart a n b bs.length) : (m.write b bs).read a n = m.read a n :=
  read_congr fun i hi => write_of_notMem m fun j hj => h i hi j hj

/-- The low bytes of a stored number are found at its place. -/
theorem read_writeNat_self (m : Memory w) (a : BitVec w) {k n : Nat} (value : Nat) (hk : k ≤ n)
    (hw : n ≤ 2 ^ w) : (m.writeNat a n value).read a k = littleEndian k value := by
  rw [writeNat, read_write_self m a (by simpa using hk) (by simpa using hw), take_littleEndian hk]

theorem read_writeNat_of_apart (m : Memory w) {a b : BitVec w} {n k : Nat} (value : Nat)
    (h : Apart a n b k) : (m.writeNat b k value).read a n = m.read a n :=
  read_write_of_apart m (by simpa using h)

theorem writeNat_of_notMem (m : Memory w) {a x : BitVec w} {n : Nat} (value : Nat)
    (h : ∀ i < n, x ≠ a + BitVec.ofNat w i) : m.writeNat a n value x = m x :=
  write_of_notMem m (by simpa using h)

/-! ### Places by their distance from an address -/

/-- The address at a signed distance from another. -/
def offset (a : BitVec w) (z : Int) : BitVec w := a + BitVec.ofInt w z

@[simp] theorem offset_zero (a : BitVec w) : offset a 0 = a := by simp [offset]

@[simp] theorem offset_offset (a : BitVec w) (y z : Int) :
    offset (offset a y) z = offset a (y + z) := by
  rw [offset, offset, offset, BitVec.ofInt_add, BitVec.add_assoc]

theorem add_ofNat_eq_offset (a : BitVec w) (n : Nat) : a + BitVec.ofNat w n = offset a n := by
  rw [offset, BitVec.ofInt_natCast]

theorem sub_ofNat_eq_offset (a : BitVec w) (n : Nat) : a - BitVec.ofNat w n = offset a (-n) := by
  rw [offset, BitVec.ofInt_neg, BitVec.ofInt_natCast, BitVec.sub_eq_add_neg]

/-- The distance by which an arithmetic operation moves an address. -/
def moved : Arith → Nat → Int
  | .add, n => n
  | .sub, n => -n

@[simp] theorem moved_zero (op : Arith) : moved op 0 = 0 := by cases op <;> rfl

theorem apply_ofNat_eq_offset (op : Arith) (a : BitVec w) (n : Nat) :
    op.apply a (BitVec.ofNat w n) = offset a (moved op n) := by
  cases op with
  | add => exact add_ofNat_eq_offset a n
  | sub => exact sub_ofNat_eq_offset a n

/-- Distances that differ by less than the whole memory name different places. -/
theorem offset_inj {a : BitVec w} {y z : Int} (h : offset a y = offset a z)
    (hlo : y - z < 2 ^ w) (hhi : z - y < 2 ^ w) : y = z := by
  have hyz : BitVec.ofInt w y = BitVec.ofInt w z := by
    have := congrArg (fun x => x - a) h
    simpa [offset, BitVec.add_comm a, BitVec.add_sub_cancel] using this
  have hmod : (y - z) % 2 ^ w = 0 := by
    have hn := congrArg BitVec.toInt hyz
    rw [BitVec.toInt_ofInt, BitVec.toInt_ofInt] at hn
    have hbal := (Int.bmod_eq_bmod_iff_bmod_sub_eq_zero).mp hn
    have hdvd := Int.dvd_of_bmod_eq_zero hbal
    exact Int.emod_eq_zero_of_dvd (by exact_mod_cast hdvd)
  obtain ⟨k, hk⟩ := Int.dvd_of_emod_eq_zero hmod
  have hpos : (0 : Int) < 2 ^ w := by positivity
  have hk0 : k = 0 := by
    have h1 : k < 1 := by
      by_contra hge
      nlinarith
    have h2 : -1 < k := by
      by_contra hle
      nlinarith
    omega
  rw [hk0, mul_zero] at hk
  omega

/-- Stretches whose distances from one address do not overlap are apart. -/
theorem apart_offset {a : BitVec w} {y z : Int} {n k : Nat} (h : y + n ≤ z ∨ z + k ≤ y)
    (hlo : y + n - z ≤ 2 ^ w) (hhi : z + k - y ≤ 2 ^ w) :
    Apart (offset a y) n (offset a z) k := by
  intro i hi j hj he
  rw [add_ofNat_eq_offset, add_ofNat_eq_offset, offset_offset, offset_offset] at he
  have := offset_inj he (by omega) (by omega)
  omega

/-- A stretch that is apart from another one has none of the addresses there. -/
theorem Apart.ne_offset {a b : BitVec w} {y z : Int} {n k i : Nat} (h : Apart a n (offset b y) k)
    (hi : i < n) (hlo : y ≤ z) (hhi : z < y + k) : a + BitVec.ofNat w i ≠ offset b z := by
  obtain ⟨j, hj⟩ := Int.eq_ofNat_of_zero_le (show 0 ≤ z - y by omega)
  have hne := h i hi j (by omega)
  rwa [add_ofNat_eq_offset (offset b y), offset_offset, show y + j = z by omega] at hne

theorem Apart.part {a b : BitVec w} {y z : Int} {n k j : Nat} (h : Apart a n (offset b y) k)
    (hlo : y ≤ z) (hhi : z + j ≤ y + k) : Apart a n (offset b z) j := by
  intro i hi l hl
  rw [add_ofNat_eq_offset (offset b z), offset_offset]
  exact h.ne_offset hi (by omega) (by omega)

/-- Whether code stands at `pc` and does not meet the `n` bytes below `top`. -/
structure Hosts (m : Memory w) (pc : BitVec w) (code : Code) (top : BitVec w) (n : Nat) : Prop where
  placed : m.read pc code.length = code
  apart : Apart pc code.length (offset top (-n)) n

/-- Code that is written far enough below a stack. -/
theorem hosts_write (m : Memory w) (pc : BitVec w) {code : Code} {n : Nat} {z : Int}
    (hz : code.length + n ≤ z) (hw : z ≤ 2 ^ w) :
    (m.write pc code).Hosts pc code (offset pc z) n where
  placed := by
    have hpow : ((2 ^ w : Nat) : Int) = 2 ^ w := by push_cast; rfl
    exact (read_write_self _ _ (le_refl _) (by omega)).trans List.take_length
  apart := by
    rw [offset_offset, ← offset_zero pc, offset_offset]
    exact apart_offset (.inl (by omega)) (by omega) (by omega)

/-- Two pieces of code have room in one memory, one behind the other. -/
theorem exists_read_eq (a : BitVec w) (c d : Code) {z : Int} (h : c.length ≤ z)
    (hw : z + d.length ≤ 2 ^ w) :
    ∃ m : Memory w, m.read a c.length = c ∧ m.read (offset a z) d.length = d := by
  have hpow : ((2 ^ w : Nat) : Int) = 2 ^ w := by push_cast; rfl
  refine ⟨(Memory.write (fun _ => 0) a c).write (offset a z) d, ?_, ?_⟩
  · rw [← offset_zero a, offset_offset, Int.zero_add, read_write_of_apart _
      (apart_offset (.inl (by omega)) (by omega) (by omega))]
    exact (read_write_self _ _ (le_refl _) (by omega)).trans List.take_length
  · exact (read_write_self _ _ (le_refl _) (by omega)).trans List.take_length

/-- Memories that agree on a stretch agree on every part of it. -/
theorem read_part {m m' : Memory w} {a : BitVec w} {y z : Int} {n k : Nat}
    (h : m.read (offset a y) n = m'.read (offset a y) n) (hlo : y ≤ z) (hhi : z + k ≤ y + n) :
    m.read (offset a z) k = m'.read (offset a z) k := by
  obtain ⟨d, hd⟩ := Int.eq_ofNat_of_zero_le (show 0 ≤ z - y by omega)
  refine read_congr fun i hi => ?_
  have hlt : d + i < n := by omega
  have hbyte := congrArg (fun bytes : Code => bytes[d + i]?) h
  simp only [getElem?_read _ _ hlt, Option.some.injEq] at hbyte
  rw [add_ofNat_eq_offset, offset_offset] at hbyte ⊢
  rw [show z + i = y + (d + i : Nat) by omega]
  exact hbyte

/-- Where nothing wraps, distances add up as numbers. -/
theorem toNat_offset {a : BitVec w} {z : Int} (hlo : 0 ≤ a.toNat + z) (hhi : a.toNat + z < 2 ^ w) :
    ((offset a z).toNat : Int) = a.toNat + z := by
  rw [offset, BitVec.toNat_add, BitVec.toNat_ofInt, Int.natCast_emod, Int.natCast_add,
    Int.toNat_of_nonneg (Int.emod_nonneg _ (by positivity))]
  push_cast
  rw [Int.add_emod, Int.emod_emod_of_dvd _ (dvd_refl _), ← Int.add_emod,
    Int.emod_eq_of_lt hlo hhi]

/-- A place below an address has a smaller number, where memory does not wrap around between. -/
theorem toNat_offset_lt {a : BitVec w} {z : Int} {n : Nat} (hroom : n ≤ a.toNat) (hlo : -n ≤ z)
    (hneg : z < 0) : (offset a z).toNat < a.toNat := by
  have hlt : (a.toNat : Int) < 2 ^ w := by exact_mod_cast a.isLt
  have hplace := toNat_offset (a := a) (z := z) (by omega) (by omega)
  omega

/-- Going down keeps what is left modulo sixteen, even across the end of memory. -/
theorem toNat_offset_neg_mod (hw : 4 ≤ w) (a : BitVec w) (k : Nat) :
    (offset a (-k)).toNat % 16 = (a.toNat + (16 - k % 16)) % 16 := by
  have hdvd : 16 ∣ 2 ^ w := pow_dvd_pow 2 hw
  have hlt : k % 2 ^ w < 2 ^ w := Nat.mod_lt _ (Nat.two_pow_pos w)
  have hmod : k % 2 ^ w % 16 = k % 16 := Nat.mod_mod_of_dvd k hdvd
  rw [← sub_ofNat_eq_offset, BitVec.toNat_sub, BitVec.toNat_ofNat, Nat.mod_mod_of_dvd _ hdvd]
  omega

/-! ### Stretches of addresses -/

/-- The addresses at distances from `lo` up to but not including `hi` from `fp`. -/
def Between (fp : BitVec w) (lo hi : Int) (x : BitVec w) : Prop :=
  ∃ z, lo ≤ z ∧ z < hi ∧ x = offset fp z

theorem Between.mono {fp x : BitVec w} {lo hi lo' hi' : Int} (h : Between fp lo hi x)
    (hlo : lo' ≤ lo) (hhi : hi ≤ hi') : Between fp lo' hi' x := by
  obtain ⟨z, hz, hz', rfl⟩ := h
  exact ⟨z, by omega, by omega, rfl⟩

/-- What lies between two distances below an address has a smaller number, where memory does not
wrap around below the address. -/
theorem Between.toNat_lt {fp top x : BitVec w} {lo hi d : Int} {n : Nat}
    (h : Between fp lo hi x) (hfp : fp = offset top d) (hroom : n ≤ top.toNat) (hlo : -n ≤ d + lo)
    (hhi : d + hi ≤ 0) : x.toNat < top.toNat := by
  obtain ⟨z, hz, hz', rfl⟩ := h
  rw [hfp, offset_offset]
  exact toNat_offset_lt hroom (by omega) (by omega)

/-- Code that is apart from a stretch of memory is apart from what lies between two distances
inside it. -/
theorem not_between_of_apart {a b fp : BitVec w} {y d lo hi : Int} {n k : Nat}
    (h : Apart a n (offset b y) k) (hfp : fp = offset b d) (hlo : y ≤ d + lo)
    (hhi : d + hi ≤ y + k) : ∀ i < n, ¬ Between fp lo hi (a + BitVec.ofNat w i) := by
  rintro i hi' ⟨z, hz, hz', hx⟩
  rw [hfp, offset_offset] at hx
  exact h.ne_offset hi' (by omega) (by omega) hx

theorem not_between {fp : BitVec w} {lo hi z : Int} {k : Nat} (h : z + k < lo ∨ hi ≤ z + k)
    (hlo : z + k - lo < 2 ^ w) (hhi : hi - (z + k) < 2 ^ w) :
    ¬ Between fp lo hi (offset fp z + BitVec.ofNat w k) := by
  rintro ⟨y, hy, hy', he⟩
  rw [add_ofNat_eq_offset, offset_offset] at he
  have := offset_inj he (by omega) (by omega)
  omega

/-! ### Code in place -/

/-- Whether bytes stand at the address `a` when `code` is placed at `base`. -/
def StandsAt (base : BitVec w) (code : Code) (a : BitVec w) (bytes : Code) : Prop :=
  ∃ front back, code = front ++ (bytes ++ back) ∧ a = offset base front.length

namespace StandsAt

variable {base a : BitVec w} {code xs ys : Code}

theorem refl (base : BitVec w) (code : Code) : StandsAt base code base code :=
  ⟨[], [], (List.append_nil code).symm, (offset_zero base).symm⟩

theorem left (h : StandsAt base code a (xs ++ ys)) : StandsAt base code a xs := by
  obtain ⟨front, back, rfl, rfl⟩ := h
  exact ⟨front, ys ++ back, by rw [List.append_assoc], rfl⟩

theorem right (h : StandsAt base code a (xs ++ ys)) :
    StandsAt base code (offset a xs.length) ys := by
  obtain ⟨front, back, rfl, rfl⟩ := h
  refine ⟨front ++ xs, back, by simp only [List.append_assoc], ?_⟩
  rw [offset_offset, List.length_append, Nat.cast_add]

/-- Bytes of the code are found where they stand. -/
theorem read_eq (h : StandsAt base code a xs) {m : Memory w}
    (hm : m.read base code.length = code) : m.read a xs.length = xs := by
  obtain ⟨front, back, rfl, rfl⟩ := h
  obtain ⟨-, hrest⟩ := read_of_append hm
  rw [add_ofNat_eq_offset] at hrest
  exact (read_of_append hrest).1

end StandsAt

end Memory

end Trampoline
