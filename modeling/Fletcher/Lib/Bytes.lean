import Mathlib.Data.Nat.Bitwise

/-!
# Byte strings: little-endian words and bitfields

Everything a positional format needs from arithmetic, stated once. A word is
laid out low byte first and read back the same way; a bitfield is a run of
bytes whose bit `i` lives in byte `i / 8` at position `i % 8`.

Storing into memory replaces a stretch of it and leaves the rest.

Nothing here knows what the words or the bits mean.
-/

namespace Lib

open List

/-- A byte string. -/
abbrev Bytes := List UInt8

/-! ## Little-endian words -/

/-- The low `w` bytes of `n`, least significant first. Higher bits are dropped. -/
def leBytes : Nat → Nat → Bytes
  | 0, _ => []
  | w + 1, n => UInt8.ofNat n :: leBytes w (n / 256)

/-- The number a byte string spells, least significant byte first. -/
def ofLe : Bytes → Nat
  | [] => 0
  | b :: bs => b.toNat + 256 * ofLe bs

/-- A property of every byte is checked on the numbers below 256. -/
theorem forall_byte {P : UInt8 → Prop} (h : ∀ n < 256, P (.ofNat n)) (c : UInt8) : P c :=
  UInt8.ofNat_toNat (x := c) ▸ h c.toNat c.toNat_lt

@[simp] theorem leBytes_length : ∀ (w n : Nat), (leBytes w n).length = w
  | 0, _ => rfl
  | w + 1, n => by simp [leBytes, leBytes_length w]

/-- Reading back a word gives its value modulo the width it was written in. -/
theorem ofLe_leBytes_mod : ∀ (w n : Nat), ofLe (leBytes w n) = n % 256 ^ w
  | 0, n => by simp [leBytes, ofLe, Nat.mod_one]
  | w + 1, n => by
    have hb : (UInt8.ofNat n).toNat = n % 256 := by simp [UInt8.toNat_ofNat']
    rw [leBytes, ofLe, ofLe_leBytes_mod w, hb, Nat.pow_succ, Nat.mul_comm (256 ^ w)]
    exact (Nat.mod_mul ..).symm

/-- A word that fits its width reads back unchanged. -/
theorem ofLe_leBytes {w n : Nat} (h : n < 256 ^ w) : ofLe (leBytes w n) = n := by
  rw [ofLe_leBytes_mod, Nat.mod_eq_of_lt h]

theorem ofLe_lt : ∀ (bs : Bytes), ofLe bs < 256 ^ bs.length
  | [] => by simp [ofLe]
  | b :: bs => by
    have ih := ofLe_lt bs
    have hb : b.toNat < 256 := b.toNat_lt
    rw [ofLe, length_cons, Nat.pow_succ]
    omega

/-- Four bytes spell a number below `2 ^ 32`. -/
theorem ofLe_lt_four {bs : Bytes} (h : bs.length = 4) : ofLe bs < 2 ^ 32 := by
  have := ofLe_lt bs
  rw [h] at this
  exact Nat.lt_of_lt_of_eq this (by decide)

/-- Writing back what was read restores the bytes. -/
theorem leBytes_ofLe : ∀ (bs : Bytes), leBytes bs.length (ofLe bs) = bs
  | [] => rfl
  | b :: bs => by
    have hb : b.toNat < 256 := b.toNat_lt
    have hdiv : (b.toNat + 256 * ofLe bs) / 256 = ofLe bs := by omega
    have hlow : UInt8.ofNat (b.toNat + 256 * ofLe bs) = b := by
      apply UInt8.toNat_inj.mp
      rw [UInt8.toNat_ofNat']
      omega
    rw [length_cons, ofLe, leBytes, hdiv, hlow, leBytes_ofLe bs]

/-! ## Bitfields -/

/-- Bit `i` of a bitfield. Bits past the end read as clear. -/
def readBit (bf : Bytes) (i : Nat) : Bool := (bf.getD (i / 8) 0).toNat.testBit (i % 8)

/-- Set bit `i`, leaving every other bit alone. -/
def orBit (bf : Bytes) (i : Nat) : Bytes :=
  bf.modify (i / 8) (fun b => b ||| UInt8.ofNat (1 <<< (i % 8)))

@[simp] theorem orBit_length (bf : Bytes) (i : Nat) : (orBit bf i).length = bf.length := by
  simp [orBit]

theorem byte_or_testBit (b : UInt8) {i : Nat} (hi : i < 8) (j : Nat) :
    (b ||| UInt8.ofNat (1 <<< i)).toNat.testBit j = (b.toNat.testBit j || decide (i = j)) := by
  have hpow : (1 <<< i : Nat) < 256 := by
    rw [Nat.one_shiftLeft]
    exact Nat.lt_of_lt_of_eq (Nat.pow_lt_pow_right (by omega) hi) (by decide)
  rw [UInt8.toNat_or, UInt8.toNat_ofNat', Nat.mod_eq_of_lt hpow, Nat.testBit_lor,
    Nat.one_shiftLeft, Nat.testBit_two_pow]

/-- Setting a bit that lies inside the field sets that bit and no other. -/
theorem readBit_orBit {bf : Bytes} {i : Nat} (hi : i / 8 < bf.length) (j : Nat) :
    readBit (orBit bf i) j = (readBit bf j || decide (i = j)) := by
  unfold readBit orBit
  rw [getD_eq_getElem?_getD, getElem?_modify, getD_eq_getElem?_getD]
  by_cases hij : i / 8 = j / 8
  · have hj : j / 8 < bf.length := hij ▸ hi
    simp only [if_pos hij, getElem?_eq_getElem hj, Option.map_eq_map, Option.map_some,
      Option.getD_some]
    rw [byte_or_testBit _ (Nat.mod_lt _ (by omega))]
    congr 1
    exact decide_eq_decide.mpr ⟨fun h => by omega, fun h => by omega⟩
  · have hne : ¬ i = j := fun h => hij (h ▸ rfl)
    simp [if_neg hij, hne]

/-- Clear bit `i`, leaving every other bit alone. -/
def clearBit (bf : Bytes) (i : Nat) : Bytes :=
  bf.modify (i / 8) (fun b => b &&& ~~~UInt8.ofNat (1 <<< (i % 8)))

@[simp] theorem clearBit_length (bf : Bytes) (i : Nat) : (clearBit bf i).length = bf.length := by
  simp [clearBit]

theorem byte_clear_testBit (b : UInt8) {i : Nat} (hi : i < 8) (j : Nat) :
    (b &&& ~~~UInt8.ofNat (1 <<< i)).toNat.testBit j = (b.toNat.testBit j && !decide (i = j)) := by
  have hpow : (1 <<< i : Nat) < 256 := by
    rw [Nat.one_shiftLeft]
    exact Nat.lt_of_lt_of_eq (Nat.pow_lt_pow_right (by omega) hi) (by decide)
  have hmask : (UInt8.ofNat (1 <<< i)).toBitVec.getLsbD j = decide (i = j) := by
    rw [← BitVec.testBit_toNat, UInt8.toNat_toBitVec, UInt8.toNat_ofNat', Nat.mod_eq_of_lt hpow,
      Nat.one_shiftLeft, Nat.testBit_two_pow]
  rw [← UInt8.toNat_toBitVec, ← UInt8.toNat_toBitVec b, BitVec.testBit_toNat, BitVec.testBit_toNat,
    UInt8.toBitVec_and, UInt8.toBitVec_not, BitVec.getLsbD_and, BitVec.getLsbD_not, hmask]
  by_cases hj : j < 8
  · simp [hj]
  · simp [BitVec.getLsbD_of_ge b.toBitVec j (Nat.not_lt.mp hj)]

/-- Clearing a bit clears that bit and no other. -/
theorem readBit_clearBit (bf : Bytes) (i j : Nat) :
    readBit (clearBit bf i) j = (readBit bf j && !decide (i = j)) := by
  unfold readBit clearBit
  rw [getD_eq_getElem?_getD, getElem?_modify, getD_eq_getElem?_getD]
  by_cases hij : i / 8 = j / 8
  · have hsame : decide (i % 8 = j % 8) = decide (i = j) :=
      decide_eq_decide.mpr ⟨fun h => by omega, fun h => by omega⟩
    simp only [if_pos hij]
    cases hb : bf[j / 8]? with
    | none => simp
    | some b => exact (byte_clear_testBit b (Nat.mod_lt i (by omega)) _).trans (by rw [hsame]; rfl)
  · have hne : ¬ i = j := fun h => hij (h ▸ rfl)
    simp [if_neg hij, hne]

/-- The bytes a bitfield of `n` bits takes. -/
def bitfieldBytes (n : Nat) : Nat := (n + 7) / 8

theorem div_lt_bitfieldBytes {i n : Nat} (h : i < n) : i / 8 < bitfieldBytes n := by
  unfold bitfieldBytes; omega

/-- Set, from bit `i` on, the bits whose flag is true. -/
def orBits (bf : Bytes) : List Bool → Nat → Bytes
  | [], _ => bf
  | f :: fs, i => orBits (if f then orBit bf i else bf) fs (i + 1)

@[simp] theorem orBits_length : ∀ (fs : List Bool) (bf : Bytes) (i : Nat),
    (orBits bf fs i).length = bf.length
  | [], _, _ => rfl
  | f :: fs, bf, i => by rw [orBits, orBits_length fs]; split <;> simp

theorem readBit_orBits : ∀ (fs : List Bool) (bf : Bytes) (i j : Nat),
    i + fs.length ≤ 8 * bf.length →
    readBit (orBits bf fs i) j = (readBit bf j || (decide (i ≤ j) && fs.getD (j - i) false))
  | [], bf, i, j, _ => by simp [orBits]
  | f :: fs, bf, i, j, h => by
    rw [length_cons] at h
    have hlen : (if f then orBit bf i else bf).length = bf.length := by split <;> simp
    rw [orBits, readBit_orBits fs _ _ _ (by rw [hlen]; omega)]
    have hstep : readBit (if f then orBit bf i else bf) j
        = (readBit bf j || (decide (i = j) && f)) := by
      cases f
      · simp
      · rw [if_pos rfl, readBit_orBit (by omega), Bool.and_true]
    rw [hstep, Bool.or_assoc]
    congr 1
    rcases Nat.lt_trichotomy i j with hlt | heq | hgt
    · have hsub : j - i = (j - (i + 1)) + 1 := by omega
      have hne : ¬ i = j := by omega
      rw [hsub, getD_cons_succ]
      simp [hne, Nat.le_of_lt hlt, show i + 1 ≤ j from hlt]
    · subst heq; simp
    · have hne : ¬ i = j := by omega
      simp [hne, Nat.not_le.mpr hgt, show ¬ i + 1 ≤ j by omega]

/-- The bitfield holding exactly `flags`, padding bits clear. -/
def packBits (flags : List Bool) : Bytes :=
  orBits (List.replicate (bitfieldBytes flags.length) 0) flags 0

@[simp] theorem packBits_length (flags : List Bool) :
    (packBits flags).length = bitfieldBytes flags.length := by simp [packBits]

@[simp] theorem readBit_replicate_zero (n i : Nat) : readBit (replicate n 0) i = false := by
  unfold readBit
  rw [getD_eq_getElem?_getD, getElem?_replicate]
  split <;> simp

/-- **Every flag reads back where it was put.** Bits past the flags read as clear. -/
theorem readBit_packBits (flags : List Bool) (i : Nat) :
    readBit (packBits flags) i = flags.getD i false := by
  rw [packBits, readBit_orBits _ _ _ _ (by simp [bitfieldBytes]; omega)]
  simp

/-- Every byte of a field is zero exactly when every bit reads as clear. -/
theorem all_zero_iff {bf : Bytes} : bf.all (· == 0) = true ↔ ∀ i, readBit bf i = false := by
  rw [all_eq_true]
  constructor
  · intro h i
    unfold readBit
    rw [getD_eq_getElem?_getD]
    cases hg : bf[i / 8]? with
    | none => simp
    | some b =>
      have hb := h b (mem_of_getElem? hg)
      simp only [beq_iff_eq] at hb
      simp [hb]
  · intro h b hb
    obtain ⟨k, hk, rfl⟩ := getElem_of_mem hb
    have hzero : ∀ j, j < 8 → (bf[k]).toNat.testBit j = false := by
      intro j hj
      have := h (8 * k + j)
      unfold readBit at this
      rw [show (8 * k + j) / 8 = k by omega, show (8 * k + j) % 8 = j by omega,
        getD_eq_getElem?_getD, getElem?_eq_getElem hk] at this
      exact this
    rw [beq_iff_eq]
    apply UInt8.toNat_inj.mp
    apply Nat.eq_of_testBit_eq
    intro j
    by_cases hj : j < 8
    · rw [hzero j hj]; simp
    · have hlt : (bf[k]).toNat < 2 ^ j :=
        Nat.lt_of_lt_of_le (bf[k]).toNat_lt (Nat.pow_le_pow_right (by omega) (by omega))
      rw [Nat.testBit_lt_two_pow hlt]; simp

/-- A packed field is all zero exactly when no flag is set. -/
theorem packBits_all_zero (flags : List Bool) :
    (packBits flags).all (· == 0) = flags.all (fun f => !f) := by
  rw [Bool.eq_iff_iff, all_zero_iff, all_eq_true]
  constructor
  · intro h f hf
    obtain ⟨k, hk, rfl⟩ := getElem_of_mem hf
    have := h k
    rw [readBit_packBits, getD_eq_getElem?_getD, getElem?_eq_getElem hk] at this
    simpa using this
  · intro h i
    rw [readBit_packBits, getD_eq_getElem?_getD]
    cases hg : flags[i]? with
    | none => rfl
    | some f => simpa using h f (mem_of_getElem? hg)

theorem packBits_replicate_false (n : Nat) :
    packBits (replicate n false) = replicate (bitfieldBytes n) 0 := by
  rw [eq_replicate_iff]
  refine ⟨by simp, fun b hb => ?_⟩
  have hzero := packBits_all_zero (replicate n false)
  rw [show (replicate n false).all (fun f => !f) = true by simp, all_eq_true] at hzero
  simpa using hzero b hb

/-! ## Storing into memory -/

/-- Put `data` over what is at `place`. -/
def store (memory : Bytes) (place : Nat) (data : Bytes) : Bytes :=
  memory.take place ++ data ++ memory.drop (place + data.length)

section Store

variable {memory data : Bytes} {place : Nat}

theorem store_nil (memory : Bytes) (place : Nat) : store memory place [] = memory := by
  rw [store, append_nil]
  exact take_append_drop place memory

theorem store_length (h : place + data.length ≤ memory.length) :
    (store memory place data).length = memory.length := by
  simp only [store, length_append, length_take, length_drop]
  omega

theorem take_store {k : Nat} (h : place + data.length ≤ memory.length) (hk : k ≤ place) :
    (store memory place data).take k = memory.take k := by
  rw [store, append_assoc, take_append_of_le_length, take_take, Nat.min_eq_left hk]
  rw [length_take]
  omega

theorem drop_store {k : Nat} (h : place + data.length ≤ memory.length)
    (hk : place + data.length ≤ k) : (store memory place data).drop k = memory.drop k := by
  have hhead : (memory.take place ++ data).length = place + data.length := by
    rw [length_append, length_take]
    omega
  rw [store, drop_append, drop_of_length_le (by omega), hhead, drop_drop,
    nil_append]
  congr 1
  omega

/-- Up to its own end, a store leaves what was before it and what it put there. -/
theorem take_store_end (h : place + data.length ≤ memory.length) :
    (store memory place data).take (place + data.length) = memory.take place ++ data := by
  have hhead : (memory.take place ++ data).length = place + data.length := by
    rw [length_append, length_take]
    omega
  rw [store, ← hhead, take_left]

end Store

end Lib
