import Fletcher.Core.WriteBuffer
import Fletcher.Lib.Reader

/-!
# The positional reader

`PositionalReader` over the bytes it has left: the reads the generated classes make,
with the texts they throw. A sub-reader starts where its parent stands and hands its
position back when it ends, so reading a struct is reading on in the same bytes under
a bitfield of its own.
-/

namespace Fletcher.Core

open Lib

/-- A reader's own state: the null bitfield in front of its fields. -/
structure PositionalReader where
  numFields : Nat
  bitfield : Bytes

namespace PositionalReader

abbrev Read := Reader Error

/-- The constructor. -/
def make (numFields : Nat) : Read PositionalReader := do
  let bitfield ← Reader.take (.invalidArgument "PositionalReader: buffer underrun (bitfield)")
    (bitfieldBytes numFields)
  pure ⟨numFields, bitfield⟩

/-- `ReadStruct`: the sub-reader's constructor. -/
def readStruct (numFields : Nat) : Read PositionalReader := do
  let bitfield ← Reader.take
    (.invalidArgument "PositionalReader: buffer underrun (struct bitfield)")
    (bitfieldBytes numFields)
  pure ⟨numFields, bitfield⟩

def isNull (r : PositionalReader) (k : Nat) : Except Error Bool :=
  if r.numFields ≤ k then
    .error (.outOfRange "PositionalReader::IsNull: field_index out of range")
  else .ok (readBit r.bitfield k)

def readBytes (n : Nat) : Read Bytes :=
  Reader.take (.invalidArgument "PositionalReader: buffer underrun") n

/-- `Read<uint32_t>`. -/
def readUint32 : Read Nat := do
  let bs ← readBytes 4
  pure (ofLe bs)

/-- `ReadBool`: any byte but zero is true. -/
def readBool : Read Bool := do
  let bs ← readBytes 1
  pure (bs.getD 0 0 != 0)

/-- `ReadString` and `ReadBinary`. -/
def readString : Read Bytes := do
  let len ← readUint32
  readBytes len

/-- `ReadListHeader`: the count and the element bitfield. -/
def readListHeader : Read (Nat × Bytes) := do
  let count ← readUint32
  let left ← Reader.remaining
  Reader.require (.invalidArgument "PositionalReader: list count exceeds remaining buffer")
    (bitfieldBytes count ≤ left)
  let bitfield ← readBytes (bitfieldBytes count)
  pure (count, bitfield)

def readMapCount : Read Nat := do
  let count ← readUint32
  let left ← Reader.remaining
  Reader.require (.invalidArgument "PositionalReader: map count exceeds remaining buffer")
    (count ≤ left)
  pure count

def readMapValueBitfield (count : Nat) : Read Bytes := readBytes (bitfieldBytes count)

/-! ## What each read consumes -/

open Reader

theorem isNull_ok {numFields k : Nat} {bitfield : Bytes} (h : k < numFields) :
    isNull ⟨numFields, bitfield⟩ k = .ok (readBit bitfield k) := if_neg (Nat.not_le.mpr h)

/-- Both constructors take the bitfield and nothing else. -/
def Opens (read : Read PositionalReader) (numFields : Nat) : Prop :=
  ∀ bitfield : Bytes, bitfield.length = bitfieldBytes numFields →
    Reads read bitfield ⟨numFields, bitfield⟩

theorem opens_make (numFields : Nat) : Opens (make numFields) numFields :=
  fun _ h => (reads_take_of_length _ h).bind_pure

theorem opens_readStruct (numFields : Nat) : Opens (readStruct numFields) numFields :=
  fun _ h => (reads_take_of_length _ h).bind_pure

theorem reads_readBytes (bs : Bytes) {n : Nat} (h : bs.length = n) : Reads (readBytes n) bs bs :=
  reads_take_of_length _ h

theorem reads_readUint32 {n : Nat} (h : n < 2 ^ 32) : Reads readUint32 (leBytes 4 n) n := by
  have hread : Reads readUint32 (leBytes 4 n) (ofLe (leBytes 4 n)) :=
    (reads_readBytes (leBytes 4 n) (leBytes_length 4 n)).bind_pure
  rwa [ofLe_leBytes (Nat.lt_of_lt_of_eq h (by decide))] at hread

theorem reads_readString {data : Bytes} (h : data.length < 2 ^ 32) :
    Reads readString (leBytes 4 data.length ++ data) data :=
  (reads_readUint32 h).bind (reads_readBytes data rfl)

/-- A list header is read off a count and a bitfield of that many bits. -/
theorem reads_readListHeader {count : Nat} {bitfield : Bytes} (h : count < 2 ^ 32)
    (hlen : bitfield.length = bitfieldBytes count) :
    Reads readListHeader (leBytes 4 count ++ bitfield) (count, bitfield) := by
  refine (reads_readUint32 h).bind (reads_remaining_bind fun left hleft => ?_)
  have hfits : decide (bitfieldBytes count ≤ left) = true := by
    rw [decide_eq_true_eq, ← hlen]
    exact hleft
  rw [hfits]
  exact (reads_pure ()).after (reads_readBytes bitfield hlen).bind_pure

/-- A map count is read off when at least that many bytes follow it. -/
theorem reads_readMapCount_bind {α : Type} {f : Nat → Read α} {count : Nat} {bs : Bytes} {a : α}
    (h : count < 2 ^ 32) (hle : count ≤ bs.length) (hf : Reads (f count) bs a) :
    Reads (readMapCount >>= f) (leBytes 4 count ++ bs) a := by
  intro rest
  have hfits : decide (count ≤ (bs ++ rest).length) = true := by
    rw [decide_eq_true_eq, List.length_append]
    omega
  have hcnt : readMapCount (leBytes 4 count ++ (bs ++ rest)) = .ok (count, bs ++ rest) := by
    rw [readMapCount, bind_of_ok (reads_readUint32 h (bs ++ rest)),
      bind_of_ok remaining_apply, hfits]
    rfl
  rw [List.append_assoc, bind_of_ok hcnt]
  exact hf rest

theorem yields_readUint32 : Yields readUint32 fun n => n < 2 ^ 32 :=
  yields_take.bind fun _ hbs => yields_pure (ofLe_lt_four hbs)

end PositionalReader

end Fletcher.Core
