import Fletcher.Core.WriteBuffer

/-!
# The growing write buffer

`VectorWriteBuffer` keeps a window over a vector whose size runs ahead of the
position: `[0, pos)` is what has been written, and `[pos, capacity)` is room that a
refill has made. The appends that fit write into the room, the others go through
`AppendSlow` or `AppendZerosSlow`.

Everything else in the development writes into `WriteBuffer`, a plain sequence of
bytes. What is shown here is when the two are the same: call by call, the window's
written part is the plain sequence. The room is where they can part. An
`AppendInPlace` lends all of it and commits a prefix, so what the producer left
behind the prefix stays there, and `AppendZerosSlow` takes the room to be zeros.
-/

namespace Fletcher.Core

open Lib List

/-- A producer the window is lent to: what it leaves in the room, and how many bytes it
reports, or the exception it throws. -/
structure Writer where
  run : Bytes → Bytes × Except Error Nat
  inside : ∀ room, (run room).1.length = room.length

structure VectorWriteBuffer where
  buf : Bytes
  capacity : Nat
  pos : Nat
  deriving DecidableEq, Repr

namespace VectorWriteBuffer

def empty : VectorWriteBuffer := ⟨[], 0, 0⟩

/-- The constructor that continues after a vector's bytes. -/
def ofVector (v : Bytes) : VectorWriteBuffer := ⟨v, v.length, v.length⟩

variable (b : VectorWriteBuffer)

/-- `[Data(), Data() + Position())`. -/
def written : Bytes := b.buf.take b.pos

/-- What is in the window behind the position. -/
def room : Bytes := b.buf.drop b.pos

/-- `std::vector::resize`. -/
def resize (buf : Bytes) (n : Nat) : Bytes := buf.take n ++ List.replicate (n - buf.length) 0

def kChunk : Nat := 256

/-- `memcpy(data_ + pos_, data, len)` and the advance. Outside the vector it has no meaning. -/
def put (data : Bytes) : Except Error VectorWriteBuffer :=
  if b.pos + data.length ≤ b.buf.length then
    .ok ⟨b.buf.take b.pos ++ data ++ b.buf.drop (b.pos + data.length), b.capacity,
      b.pos + data.length⟩
  else .error .undefined

/-- `Refill`. The sum is one of `size_t`. -/
def refill (len : Nat) : VectorWriteBuffer :=
  let grow := max len kChunk
  let buf := resize b.buf ((b.pos + grow) % 2 ^ 64)
  ⟨buf, buf.length, b.pos⟩

def appendSlow (data : Bytes) : Except Error VectorWriteBuffer :=
  if kChunk ≤ data.length then
    let buf := resize b.buf b.pos ++ data
    .ok ⟨buf, buf.length, buf.length⟩
  else (b.refill data.length).put data

def append (data : Bytes) : Except Error VectorWriteBuffer :=
  if b.capacity - b.pos < data.length then b.appendSlow data else b.put data

def appendByte (x : UInt8) : Except Error VectorWriteBuffer :=
  if b.pos = b.capacity then b.appendSlow [x] else b.put [x]

/-- The new bytes of a refill are zero, and nothing else is written. -/
def appendZerosSlow (len : Nat) : VectorWriteBuffer :=
  let b := b.refill len
  { b with pos := (b.pos + len) % 2 ^ 64 }

def appendZeros (len : Nat) : Except Error VectorWriteBuffer :=
  if b.capacity - b.pos < len then .ok (b.appendZerosSlow len)
  else b.put (List.replicate len 0)

def patchU32 (offset value : Nat) : Except Error VectorWriteBuffer :=
  if b.pos < 4 ∨ b.pos - 4 < offset then
    .error (.outOfRange "WriteBuffer::PatchU32: offset out of range")
  else .ok { b with buf := b.buf.take offset ++ leBytes 4 value ++ b.buf.drop (offset + 4) }

def patchByte (offset : Nat) (bits : UInt8) :
    Except Error VectorWriteBuffer :=
  if b.pos ≤ offset then .error (.outOfRange "WriteBuffer::PatchByte: offset out of range")
  else .ok { b with buf := b.buf.modify offset (fun x => x ||| bits) }

/-- Room for `minBytes`, made through the refill of `AppendZerosSlow`. -/
def makeRoom (minBytes : Nat) : VectorWriteBuffer :=
  if b.capacity - b.pos < minBytes then { b.appendZerosSlow minBytes with pos := b.pos } else b

/-- `AppendInPlace`, by a writer that does not re-enter the buffer. -/
def appendInPlace (minBytes : Nat) (writer : Writer) :
    Except Error Unit × VectorWriteBuffer :=
  if minBytes = 0 then
    (.error (.pubSubError "WriteBuffer::AppendInPlace: min_bytes must be non-zero"), b)
  else if 2 ^ 64 - 1 - b.pos < minBytes then
    (.error (.overflowError
      "WriteBuffer::AppendInPlace: min_bytes cannot be satisfied by any window"), b)
  else
    let b := b.makeRoom minBytes
    if b.capacity < b.pos ∨ b.capacity - b.pos < minBytes then
      (.error (.overflowError
        "WriteBuffer::AppendInPlace: the refill did not deliver contiguous room"), b)
    else
      let left := writer.run b.room
      let scribbled := { b with buf := b.buf.take b.pos ++ left.1 }
      match left.2 with
      | .error e => (.error e, scribbled)
      | .ok used =>
        if b.capacity - b.pos < used then
          (.error (.pubSubError ("WriteBuffer::AppendInPlace: the writer reported more bytes " ++
            "than it was lent; nothing was committed")), scribbled)
        else (.ok (), { scribbled with pos := b.pos + used })

/-- `Finish`: the bytes written so far. The buffer is empty afterwards. -/
def finish : Bytes × VectorWriteBuffer := (resize b.buf b.pos, empty)

end VectorWriteBuffer

/-! ## Calls -/

/-- The calls on a buffer. An object appended by `AppendFixed` is its bytes. -/
inductive BufferCall where
  | append (data : Bytes)
  | appendByte (x : UInt8)
  | appendFixed (object : Bytes)
  | appendZeros (len : UInt64)
  | patchU32 (offset : UInt64) (value : UInt32)
  | patchByte (offset : UInt64) (bits : UInt8)
  | appendInPlace (minBytes : UInt64) (writer : Writer)
  | finish

/-- What a call reports: an exception, or nothing but the bytes `Finish` hands over. -/
abbrev Report := Except Error (Option Bytes)

/-- A call that either throws and changes nothing or leaves a new buffer. -/
def settle {σ : Type} (s : σ) : Except Error σ → Report × σ
  | .ok s' => (.ok none, s')
  | .error e => (.error e, s)

def VectorWriteBuffer.call (b : VectorWriteBuffer) : BufferCall → Report × VectorWriteBuffer
  | .append data => settle b (b.append data)
  | .appendByte x => settle b (b.appendByte x)
  | .appendFixed object => settle b (b.append object)
  | .appendZeros len => settle b (b.appendZeros len.toNat)
  | .patchU32 offset value => settle b (b.patchU32 offset.toNat value.toNat)
  | .patchByte offset bits => settle b (b.patchByte offset.toNat bits)
  | .appendInPlace minBytes writer =>
    let r := b.appendInPlace minBytes.toNat writer
    (r.1.map fun _ => none, r.2)
  | .finish => (.ok (some b.finish.1), b.finish.2)

/-- The room a writer is lent by an `AppendInPlace`. -/
def VectorWriteBuffer.lent (b : VectorWriteBuffer) : BufferCall → Bytes
  | .appendInPlace minBytes _ => (b.makeRoom minBytes.toNat).room
  | _ => []

/-- The same calls on the plain sequence of bytes. An `AppendInPlace` appends the first `used`
of the bytes the writer left, having been lent `lent`. -/
def WriteBuffer.call (b : WriteBuffer) (lent : Bytes) : BufferCall → Report × WriteBuffer
  | .append data => (.ok none, b.append data)
  | .appendByte x => (.ok none, b.appendByte x)
  | .appendFixed object => (.ok none, b.append object)
  | .appendZeros len => (.ok none, b.appendZeros len.toNat)
  | .patchU32 offset value =>
    settle b (if b.position < 4 ∨ b.position - 4 < offset.toNat then
        .error (.outOfRange "WriteBuffer::PatchU32: offset out of range")
      else .ok ⟨b.bytes.take offset.toNat ++ leBytes 4 value.toNat ++
        b.bytes.drop (offset.toNat + 4)⟩)
  | .patchByte offset bits => settle b (b.patchByte offset.toNat bits)
  | .appendInPlace minBytes writer =>
    if minBytes.toNat = 0 then
      (.error (.pubSubError "WriteBuffer::AppendInPlace: min_bytes must be non-zero"), b)
    else if 2 ^ 64 - 1 - b.position < minBytes.toNat then
      (.error (.overflowError
        "WriteBuffer::AppendInPlace: min_bytes cannot be satisfied by any window"), b)
    else
      match (writer.run lent).2 with
      | .error e => (.error e, b)
      | .ok used =>
        if lent.length < used then
          (.error (.pubSubError ("WriteBuffer::AppendInPlace: the writer reported more " ++
            "bytes than it was lent; nothing was committed")), b)
        else (.ok none, b.append ((writer.run lent).1.take used))
  | .finish => (.ok (some b.bytes), .empty)

/-- Every call of the sequence reports what it reports on the plain sequence, and leaves the
same bytes written. -/
def Refines : VectorWriteBuffer → WriteBuffer → List BufferCall → Prop
  | _, _, [] => True
  | b, plain, c :: calls =>
    (b.call c).1 = (plain.call (b.lent c) c).1 ∧
    (b.call c).2.written = (plain.call (b.lent c) c).2.bytes ∧
    Refines (b.call c).2 (plain.call (b.lent c) c).2 calls

namespace VectorWriteBuffer

variable {b : VectorWriteBuffer} {len : Nat} {data bytes : Bytes}

/-! ## The window -/

/-- The window is the whole vector and the position lies in it. -/
structure Inv (b : VectorWriteBuffer) : Prop where
  capacity_eq : b.capacity = b.buf.length
  pos_le : b.pos ≤ b.buf.length

theorem inv_empty : Inv empty := ⟨rfl, Nat.le_refl 0⟩

theorem inv_ofVector (v : Bytes) : Inv (ofVector v) := ⟨rfl, Nat.le_refl _⟩

theorem written_length (h : b.Inv) : b.written.length = b.pos := by
  rw [written, length_take, Nat.min_eq_left h.pos_le]

theorem room_length (h : b.Inv) : b.room.length = b.capacity - b.pos := by
  rw [room, length_drop, h.capacity_eq]

theorem resize_length (buf : Bytes) (n : Nat) : (resize buf n).length = n := by
  rw [resize, length_append, length_take, length_replicate]
  omega

/-- Resizing to the position cuts the room off. -/
theorem resize_pos (h : b.Inv) : resize b.buf b.pos = b.written := by
  rw [resize, Nat.sub_eq_zero_of_le h.pos_le, replicate_zero, append_nil, written]

/-- Growing keeps what is there and adds zeros. -/
theorem resize_grow {buf : Bytes} {n : Nat} (h : buf.length ≤ n) :
    resize buf n = buf ++ replicate (n - buf.length) 0 := by
  rw [resize, take_of_length_le h]

/-- The call goes through, and these are the bytes written by now. -/
def Leaves (r : Except Error VectorWriteBuffer) (bytes : Bytes) : Prop :=
  ∃ b', r = .ok b' ∧ b'.Inv ∧ b'.written = bytes

/-- A copy into the room. -/
theorem put_spec (h : b.Inv) (hroom : b.pos + data.length ≤ b.buf.length) :
    Leaves (b.put data) (b.written ++ data) := by
  have hlen : (b.buf.take b.pos ++ data).length = b.pos + data.length := by
    rw [length_append, length_take, Nat.min_eq_left h.pos_le]
  refine ⟨_, if_pos hroom, ⟨?_, ?_⟩, ?_⟩
  · rw [length_append, hlen, length_drop, h.capacity_eq]
    omega
  · rw [length_append, hlen]
    exact Nat.le_add_right _ _
  · show List.take (b.pos + data.length) (b.buf.take b.pos ++ data ++ _) = _
    rw [← hlen, take_left]
    rfl

/-- A refill that does not wrap: the same bytes, with zeros behind the old room. -/
theorem refill_spec (h : b.Inv)
    (hsht : b.capacity - b.pos < len) (hwrap : b.pos + max len kChunk < 2 ^ 64) :
    (b.refill len).Inv ∧ (b.refill len).pos = b.pos ∧ (b.refill len).written = b.written ∧
      (b.refill len).buf.length = b.pos + max len kChunk ∧
      (b.refill len).room = b.room ++ replicate (b.pos + max len kChunk - b.buf.length) 0 := by
  have hcap := h.capacity_eq
  have hgrow : b.buf.length ≤ b.pos + max len kChunk := by omega
  have hbuf : (b.refill len).buf =
      b.buf ++ replicate (b.pos + max len kChunk - b.buf.length) 0 := by
    rw [refill, Nat.mod_eq_of_lt hwrap, resize_grow hgrow]
  have hlen : (b.refill len).buf.length = b.pos + max len kChunk := by
    rw [hbuf, length_append, length_replicate]
    omega
  refine ⟨⟨rfl, ?_⟩, rfl, ?_, hlen, ?_⟩
  · rw [hlen]
    exact Nat.le_add_right _ _
  · show (b.refill len).buf.take b.pos = _
    rw [hbuf, take_append_of_le_length h.pos_le]
    rfl
  · show (b.refill len).buf.drop b.pos = _
    rw [hbuf, drop_append_of_le_length h.pos_le]
    rfl

/-- A refill that wraps leaves fewer bytes than were written. -/
theorem refill_wraps (b : VectorWriteBuffer) (hlen : len < 2 ^ 64)
    (hwrap : 2 ^ 64 ≤ b.pos + max len kChunk) : (b.refill len).buf.length < b.pos := by
  show (resize b.buf ((b.pos + max len kChunk) % 2 ^ 64)).length < b.pos
  rw [resize_length]
  have hgrow : max len kChunk < 2 ^ 64 := Nat.max_lt.mpr ⟨hlen, by decide⟩
  omega

/-! ## The calls, one by one -/

/-- `len` more bytes go into the room, or into the room after a refill that does not wrap. -/
def Fits (b : VectorWriteBuffer) (len : Nat) : Prop :=
  len ≤ b.capacity - b.pos ∨ b.pos + max len kChunk < 2 ^ 64

theorem append_ok (h : b.Inv) (hfits : b.Fits data.length ∨ kChunk ≤ data.length) :
    Leaves (b.append data) (b.written ++ data) := by
  have hcap := h.capacity_eq
  have hpos := h.pos_le
  by_cases hsht : b.capacity - b.pos < data.length
  · rw [append, if_pos hsht, appendSlow]
    by_cases hchunk : kChunk ≤ data.length
    · -- A large append drops the room and leaves the window full.
      rw [if_pos hchunk, resize_pos h]
      exact ⟨_, rfl, ⟨rfl, Nat.le_refl _⟩, take_length⟩
    · have hwrap : b.pos + max data.length kChunk < 2 ^ 64 := by
        rcases hfits with (_ | hwrap) | hlarge
        · omega
        · exact hwrap
        · exact absurd hlarge hchunk
      obtain ⟨hinv, hsame, hwr, hlen, -⟩ := refill_spec h hsht hwrap
      rw [if_neg hchunk, ← hwr]
      refine put_spec hinv ?_
      rw [hlen, hsame]
      omega
  · rw [append, if_neg hsht]
    exact put_spec h (by omega)

theorem append_undefined (hlen : data.length < kChunk)
    (hsht : b.capacity - b.pos < data.length) (hwrap : 2 ^ 64 ≤ b.pos + max data.length kChunk) :
    b.append data = .error .undefined := by
  have hless := refill_wraps b (Nat.lt_trans hlen (by decide)) hwrap
  rw [append, if_pos hsht, appendSlow, if_neg (Nat.not_le.mpr hlen), put]
  refine if_neg ?_
  show ¬ b.pos + data.length ≤ (b.refill data.length).buf.length
  omega

/-- A byte is an append of one. -/
theorem appendByte_eq (h : b.Inv) (x : UInt8) : b.appendByte x = b.append [x] := by
  have hcap := h.capacity_eq
  have hpos := h.pos_le
  rw [appendByte, append]
  by_cases hfull : b.pos = b.capacity
  · rw [if_pos hfull, if_pos (by simp only [length_singleton]; omega)]
  · rw [if_neg hfull, if_neg (by simp only [length_singleton]; omega)]

/-- What is taken of the room by zeros that do not fit it is the room as it is. -/
theorem appendZeros_slow (h : b.Inv)
    (hsht : b.capacity - b.pos < len) (hwrap : b.pos + max len kChunk < 2 ^ 64) :
    Leaves (b.appendZeros len) (b.written ++ b.room ++ replicate (len - b.room.length) 0) := by
  obtain ⟨hinv, hsame, hwr, hlen, hroom⟩ := refill_spec h hsht hwrap
  have hmod : (b.pos + len) % 2 ^ 64 = b.pos + len := Nat.mod_eq_of_lt (by omega)
  have hroo := room_length h
  have hwri := written_length h
  have hcap := h.capacity_eq
  refine ⟨b.appendZerosSlow len, by rw [appendZeros, if_pos hsht], ⟨hinv.capacity_eq, ?_⟩, ?_⟩
  · show ((b.refill len).pos + len) % 2 ^ 64 ≤ _
    rw [hsame, hmod]
    show b.pos + len ≤ (b.refill len).buf.length
    rw [hlen]
    omega
  · show (b.refill len).buf.take (((b.refill len).pos + len) % 2 ^ 64) = _
    have hspl : (b.refill len).buf = (b.refill len).written ++ (b.refill len).room :=
      (take_append_drop _ _).symm
    rw [hsame, hmod, hspl, hwr, hroom, ← written_length h, take_length_add_append,
      append_assoc]
    congr 1
    rw [take_append, take_of_length_le (by omega), take_replicate]
    congr 2
    omega

theorem appendZeros_fast (h : b.Inv) (hfit : len ≤ b.capacity - b.pos) :
    Leaves (b.appendZeros len) (b.written ++ replicate len 0) := by
  have hcap := h.capacity_eq
  have hpos := h.pos_le
  rw [appendZeros, if_neg (by omega)]
  exact put_spec h (by rw [length_replicate]; omega)

/-- After zeros whose refill wraps there are fewer bytes than before. -/
theorem appendZeros_wraps (hlen : len < 2 ^ 64)
    (hsht : b.capacity - b.pos < len) (hwrap : 2 ^ 64 ≤ b.pos + max len kChunk) :
    ∃ b', b.appendZeros len = .ok b' ∧ b'.written.length < b.pos := by
  have hless := refill_wraps b hlen hwrap
  refine ⟨b.appendZerosSlow len, by rw [appendZeros, if_pos hsht], ?_⟩
  show ((b.refill len).buf.take _).length < b.pos
  rw [length_take]
  omega

/-- A patch below the position changes what is written as it changes the whole. -/
theorem take_patch {buf : Bytes} {offset pos : Nat} (hin : offset + data.length ≤ pos)
    (hpos : pos ≤ buf.length) :
    (buf.take offset ++ data ++ buf.drop (offset + data.length)).take pos =
      (buf.take pos).take offset ++ data ++ (buf.take pos).drop (offset + data.length) := by
  have hhead : (buf.take offset ++ data).length = offset + data.length := by
    rw [length_append, length_take, Nat.min_eq_left (by omega)]
  rw [take_append, take_of_length_le (by omega), hhead, take_take,
    Nat.min_eq_left (by omega), drop_take]

theorem patchU32_ok (h : b.Inv) {offset value : Nat} (hin : ¬ (b.pos < 4 ∨ b.pos - 4 < offset)) :
    Leaves (b.patchU32 offset value)
      (b.written.take offset ++ leBytes 4 value ++ b.written.drop (offset + 4)) := by
  have hpos := h.pos_le
  have hfour : (leBytes 4 value).length = 4 := leBytes_length 4 value
  refine ⟨_, if_neg hin, ⟨?_, ?_⟩, ?_⟩
  · simp only [length_append, length_take, length_drop, hfour, h.capacity_eq]
    omega
  · simp only [length_append, length_take, length_drop, hfour]
    omega
  · have htake := @take_patch (leBytes 4 value) b.buf offset b.pos (by rw [hfour]; omega) hpos
    rw [hfour] at htake
    exact htake

theorem patchByte_ok (h : b.Inv) {offset : Nat} (bits : UInt8) (hin : ¬ b.pos ≤ offset) :
    Leaves (b.patchByte offset bits) (b.written.modify offset fun x => x ||| bits) := by
  refine ⟨_, if_neg hin, ⟨?_, ?_⟩, ?_⟩
  · rw [length_modify, h.capacity_eq]
  · rw [length_modify]
    exact h.pos_le
  · exact take_modify _ _ _ _

/-- Making room writes nothing. -/
theorem makeRoom_spec (h : b.Inv) {minBytes : Nat} (hfits : b.Fits minBytes) :
    (b.makeRoom minBytes).Inv ∧ (b.makeRoom minBytes).pos = b.pos ∧
      (b.makeRoom minBytes).written = b.written ∧
      minBytes ≤ (b.makeRoom minBytes).capacity - b.pos := by
  by_cases hsht : b.capacity - b.pos < minBytes
  · have hwrap : b.pos + max minBytes kChunk < 2 ^ 64 := by
      rcases hfits with _ | hwrap
      · omega
      · exact hwrap
    obtain ⟨hinv, hsame, hwr, hlen, -⟩ := refill_spec h hsht hwrap
    have hroom : b.makeRoom minBytes = b.refill minBytes := if_pos hsht
    rw [hroom, hinv.capacity_eq, hlen]
    exact ⟨hinv, hsame, hwr, by omega⟩
  · have hroom : b.makeRoom minBytes = b := if_neg hsht
    rw [hroom]
    exact ⟨h, rfl, rfl, by omega⟩

theorem makeRoom_wraps {minBytes : Nat} (hmin : minBytes < 2 ^ 64) (hfits : ¬ b.Fits minBytes) :
    (b.makeRoom minBytes).buf.length < b.pos ∧
      (b.makeRoom minBytes).capacity < (b.makeRoom minBytes).pos := by
  have hsht : b.capacity - b.pos < minBytes := by
    by_contra hfit
    exact hfits (Or.inl (by omega))
  have hwrap : 2 ^ 64 ≤ b.pos + max minBytes kChunk := by
    by_contra hwrap
    exact hfits (Or.inr (by omega))
  have hroom : b.makeRoom minBytes = b.refill minBytes := if_pos hsht
  rw [hroom]
  exact ⟨refill_wraps b hmin hwrap, refill_wraps b hmin hwrap⟩

/-! ## One call -/

/-- A call that reports the same on the plain sequence and leaves the same bytes. -/
def Agrees (b : VectorWriteBuffer) (c : BufferCall) : Prop :=
  (b.call c).1 = ((⟨b.written⟩ : WriteBuffer).call (b.lent c) c).1 ∧
    (b.call c).2.written = ((⟨b.written⟩ : WriteBuffer).call (b.lent c) c).2.bytes

/-- What a call needs of the window: no sum of a refill reaches `2 ^ 64`, and zeros that do not
fit the room find nothing but zeros in it. -/
def Safe (b : VectorWriteBuffer) : BufferCall → Prop
  | .append data => b.Fits data.length ∨ kChunk ≤ data.length
  | .appendByte _ => b.Fits 1
  | .appendFixed object => b.Fits object.length ∨ kChunk ≤ object.length
  | .appendZeros len =>
    len.toNat ≤ b.capacity - b.pos ∨
      (b.pos + max len.toNat kChunk < 2 ^ 64 ∧ ∀ x ∈ b.room, x = 0)
  | .appendInPlace minBytes _ =>
    minBytes.toNat = 0 ∨ 2 ^ 64 - 1 - b.pos < minBytes.toNat ∨ b.Fits minBytes.toNat
  | .patchU32 _ _ => True
  | .patchByte _ _ => True
  | .finish => True

/-- A call that went through, against the bytes it should have written. -/
theorem settle_ok {r : Except Error VectorWriteBuffer} (hr : Leaves r bytes) :
    ((settle b r).1 = .ok none ∧ (settle b r).2.written = bytes) ∧ (settle b r).2.Inv := by
  obtain ⟨b', hok, hinv, hwr⟩ := hr
  rw [hok]
  exact ⟨⟨rfl, hwr⟩, hinv⟩

/-- The room is what the sequence of bytes would be without it. -/
theorem appendZeros_ok (h : b.Inv)
    (hsafe : len ≤ b.capacity - b.pos ∨ (b.pos + max len kChunk < 2 ^ 64 ∧ ∀ x ∈ b.room, x = 0)) :
    Leaves (b.appendZeros len) (b.written ++ replicate len 0) := by
  by_cases hfit : len ≤ b.capacity - b.pos
  · exact appendZeros_fast h hfit
  · rcases hsafe with hfit' | ⟨hwrap, hzero⟩
    · exact absurd hfit' hfit
    · obtain ⟨b', hok, hinv, hwr⟩ := appendZeros_slow h (by omega) hwrap
      have hroom : b.room = replicate b.room.length 0 := eq_replicate_of_mem hzero
      have hlen := room_length h
      refine ⟨b', hok, hinv, ?_⟩
      rw [hwr, append_assoc, hroom, length_replicate, replicate_append_replicate]
      congr 2
      omega

theorem patchU32_agrees (h : b.Inv) (offset : UInt64) (value : UInt32) :
    b.Agrees (.patchU32 offset value) ∧ (b.call (.patchU32 offset value)).2.Inv := by
  have hpos : (⟨b.written⟩ : WriteBuffer).position = b.pos := written_length h
  by_cases hout : b.pos < 4 ∨ b.pos - 4 < offset.toNat
  · rw [Agrees, call, WriteBuffer.call, hpos, patchU32, if_pos hout, if_pos hout]
    exact ⟨⟨rfl, rfl⟩, h⟩
  · rw [Agrees, call, WriteBuffer.call, hpos, if_neg hout]
    exact settle_ok (patchU32_ok h hout)

theorem patchByte_agrees (h : b.Inv) (offset : UInt64) (bits : UInt8) :
    b.Agrees (.patchByte offset bits) ∧ (b.call (.patchByte offset bits)).2.Inv := by
  have hlen := written_length h
  by_cases hout : b.pos ≤ offset.toNat
  · rw [Agrees, call, WriteBuffer.call, WriteBuffer.patchByte, hlen, patchByte, if_pos hout,
      if_pos hout]
    exact ⟨⟨rfl, rfl⟩, h⟩
  · rw [Agrees, call, WriteBuffer.call, WriteBuffer.patchByte, hlen, if_neg hout]
    exact settle_ok (patchByte_ok h bits hout)

/-- What a writer leaves in the room stays behind the position. -/
theorem scribbled_inv (h : b.Inv) {left : Bytes}
    (hleft : left.length = b.room.length) {used : Nat} (hused : used ≤ b.capacity - b.pos) :
    (VectorWriteBuffer.mk (b.buf.take b.pos ++ left) b.capacity (b.pos + used)).Inv ∧
      (VectorWriteBuffer.mk (b.buf.take b.pos ++ left) b.capacity (b.pos + used)).written =
        b.written ++ left.take used := by
  have hroom := room_length h
  have hlen : (b.buf.take b.pos).length = b.pos := written_length h
  have hcap := h.capacity_eq
  have hpos := h.pos_le
  refine ⟨⟨?_, ?_⟩, ?_⟩
  · show b.capacity = (b.buf.take b.pos ++ left).length
    rw [length_append, hlen]
    omega
  · show b.pos + used ≤ (b.buf.take b.pos ++ left).length
    rw [length_append, hlen]
    omega
  · show (b.buf.take b.pos ++ left).take (b.pos + used) = b.buf.take b.pos ++ left.take used
    rw [take_append, hlen, take_of_length_le (by omega), Nat.add_sub_cancel_left]

theorem appendInPlace_agrees (h : b.Inv) (minBytes : UInt64)
    (writer : Writer) (hsafe : b.Safe (.appendInPlace minBytes writer)) :
    b.Agrees (.appendInPlace minBytes writer) ∧
      (b.call (.appendInPlace minBytes writer)).2.Inv := by
  have hposi : (⟨b.written⟩ : WriteBuffer).position = b.pos := written_length h
  by_cases hnone : minBytes.toNat = 0
  · rw [Agrees, call, WriteBuffer.call, appendInPlace, if_pos hnone, if_pos hnone]
    exact ⟨⟨rfl, rfl⟩, h⟩
  by_cases hnev : 2 ^ 64 - 1 - b.pos < minBytes.toNat
  · rw [Agrees, call, WriteBuffer.call, appendInPlace, hposi, if_neg hnone, if_neg hnone,
      if_pos hnev, if_pos hnev]
    exact ⟨⟨rfl, rfl⟩, h⟩
  have hfits : b.Fits minBytes.toNat := (hsafe.resolve_left hnone).resolve_left hnev
  obtain ⟨hinv, _, hwr, _⟩ := makeRoom_spec h hfits
  rw [Agrees, call, WriteBuffer.call, lent, appendInPlace, hposi, if_neg hnone, if_neg hnone,
    if_neg hnev, if_neg hnev]
  -- From here on the buffer is the one room was made in.
  generalize b.makeRoom minBytes.toNat = lentBuffer at *
  have hdel : ¬ (lentBuffer.capacity < lentBuffer.pos ∨
      lentBuffer.capacity - lentBuffer.pos < minBytes.toNat) := by
    omega
  have hroom := room_length hinv
  have hins := writer.inside lentBuffer.room
  have hnot := scribbled_inv hinv hins (Nat.zero_le _)
  rw [Nat.add_zero, take_zero, append_nil, hwr] at hnot
  simp only [if_neg hdel]
  cases hres : (writer.run lentBuffer.room).2 with
  | error e => exact ⟨⟨rfl, hnot.2⟩, hnot.1⟩
  | ok used =>
    dsimp only
    by_cases hmore : lentBuffer.capacity - lentBuffer.pos < used
    · rw [if_pos hmore, if_pos (by omega)]
      exact ⟨⟨rfl, hnot.2⟩, hnot.1⟩
    · have hcom := scribbled_inv hinv hins (Nat.le_of_not_lt hmore)
      rw [hwr] at hcom
      rw [if_neg hmore, if_neg (by omega)]
      exact ⟨⟨rfl, hcom.2⟩, hcom.1⟩

/-- A safe call agrees, and leaves the window as it should be. -/
theorem call_agrees (h : b.Inv) (c : BufferCall) (hsafe : b.Safe c) :
    b.Agrees c ∧ (b.call c).2.Inv := by
  cases c with
  | append _ => exact settle_ok (append_ok h hsafe)
  | appendByte x =>
    rw [Agrees, call, appendByte_eq h]
    exact settle_ok (append_ok h (Or.inl hsafe))
  | appendFixed _ => exact settle_ok (append_ok h hsafe)
  | appendZeros _ => exact settle_ok (appendZeros_ok h hsafe)
  | patchU32 offset value => exact patchU32_agrees h offset value
  | patchByte offset bits => exact patchByte_agrees h offset bits
  | appendInPlace minBytes writer => exact appendInPlace_agrees h minBytes writer hsafe
  | finish =>
    refine ⟨⟨?_, rfl⟩, inv_empty⟩
    show Except.ok (some (resize b.buf b.pos)) = _
    rw [resize_pos h]
    rfl

/-! ## A call that is not safe -/

theorem append_differs (hrsk : ¬ (b.Fits data.length ∨ kChunk ≤ data.length)) :
    (settle b (b.append data)).1 ≠ .ok none := by
  rw [not_or, Fits, not_or, Nat.not_le, Nat.not_lt, Nat.not_le] at hrsk
  rw [append_undefined hrsk.2 hrsk.1.1 hrsk.1.2]
  exact nofun

theorem appendZeros_differs (h : b.Inv) {len : UInt64}
    (hrsk : ¬ b.Safe (.appendZeros len)) : ¬ b.Agrees (.appendZeros len) := by
  intro hagr
  have hby : (settle b (b.appendZeros len.toNat)).2.written =
      b.written ++ replicate len.toNat 0 := hagr.2
  rw [Safe, not_or, Nat.not_le] at hrsk
  obtain ⟨hsht, hroom⟩ := hrsk
  by_cases hwrap : b.pos + max len.toNat kChunk < 2 ^ 64
  · -- The zeros begin with the room.
    obtain ⟨b', hok, -, hwr⟩ := appendZeros_slow h hsht hwrap
    rw [hok] at hby
    have hzeros : b.room ++ replicate (len.toNat - b.room.length) 0 =
        replicate len.toNat 0 := by
      have hboth := hwr.symm.trans hby
      rw [append_assoc] at hboth
      exact append_cancel_left hboth
    refine hroom ⟨hwrap, fun x hx => ?_⟩
    have hmem : x ∈ replicate len.toNat 0 := by
      rw [← hzeros]
      exact mem_append_left _ hx
    exact eq_of_mem_replicate hmem
  · obtain ⟨b', hok, _⟩ := appendZeros_wraps len.toNat_lt hsht (Nat.le_of_not_lt hwrap)
    rw [hok] at hby
    have hlen := congrArg List.length hby
    rw [length_append, written_length h] at hlen
    have hset : (settle b (.ok b')).2.written.length = b'.written.length := rfl
    omega

/-- An `AppendInPlace` on the plain sequence never takes bytes away. -/
theorem appendInPlace_keeps (plain : WriteBuffer) (lent : Bytes) (minBytes : UInt64)
    (writer : Writer) :
    plain.bytes.length ≤ (plain.call lent (.appendInPlace minBytes writer)).2.bytes.length := by
  rw [WriteBuffer.call]
  split
  · exact Nat.le_refl _
  split
  · exact Nat.le_refl _
  split
  · exact Nat.le_refl _
  split
  · exact Nat.le_refl _
  · show _ ≤ (plain.bytes ++ _).length
    rw [length_append]
    exact Nat.le_add_right _ _

theorem appendInPlace_differs (h : b.Inv) {minBytes : UInt64}
    {writer : Writer} (hrsk : ¬ b.Safe (.appendInPlace minBytes writer)) :
    ¬ b.Agrees (.appendInPlace minBytes writer) := by
  intro hagr
  rw [Safe, not_or, not_or] at hrsk
  obtain ⟨hnone, hnev, hfits⟩ := hrsk
  obtain ⟨_, hbro⟩ := makeRoom_wraps minBytes.toNat_lt hfits
  -- The refill took bytes away, and the call reports so.
  have hcall : (b.call (.appendInPlace minBytes writer)).2 = b.makeRoom minBytes.toNat := by
    rw [call, appendInPlace, if_neg hnone, if_neg hnev, if_pos (Or.inl hbro)]
  have hby := hagr.2
  rw [hcall] at hby
  have hkept := appendInPlace_keeps ⟨b.written⟩ (b.lent (.appendInPlace minBytes writer))
    minBytes writer
  rw [← hby, written, written, length_take, length_take] at hkept
  have hpos := h.pos_le
  omega

theorem call_differs (h : b.Inv) (c : BufferCall) (hrsk : ¬ b.Safe c) : ¬ b.Agrees c := by
  cases c with
  | append _ => exact fun hagr => append_differs hrsk hagr.1
  | appendByte x =>
    intro hagr
    have hrep : (settle b (b.appendByte x)).1 = .ok none := hagr.1
    have hone : ¬ (b.Fits [x].length ∨ kChunk ≤ [x].length) :=
      not_or.mpr ⟨hrsk, by show ¬ 256 ≤ 1; decide⟩
    rw [appendByte_eq h] at hrep
    exact append_differs hone hrep
  | appendFixed _ => exact fun hagr => append_differs hrsk hagr.1
  | appendZeros _ => exact appendZeros_differs h hrsk
  | patchU32 offset _ => exact absurd trivial hrsk
  | patchByte offset _ => exact absurd trivial hrsk
  | appendInPlace _ _ => exact appendInPlace_differs h hrsk
  | finish => exact absurd trivial hrsk

/-! ## Sequences of calls -/

/-- Every call of the sequence is safe where it is made. -/
def SafeRun : VectorWriteBuffer → List BufferCall → Prop
  | _, [] => True
  | b, c :: calls => b.Safe c ∧ SafeRun (b.call c).2 calls

/-- From any window, a sequence of calls gives the bytes of the plain sequence, call by call,
exactly when each of its calls is safe. -/
theorem refines_iff_safeRun (calls : List BufferCall) (b : VectorWriteBuffer) (h : b.Inv) :
    Refines b ⟨b.written⟩ calls ↔ SafeRun b calls := by
  induction calls generalizing b with
  | nil => exact Iff.rfl
  | cons c calls ih =>
    by_cases hsafe : b.Safe c
    · obtain ⟨hagr, hinv⟩ := call_agrees h c hsafe
      have hpln : (⟨(b.call c).2.written⟩ : WriteBuffer) =
          ((⟨b.written⟩ : WriteBuffer).call (b.lent c) c).2 := by
        rw [hagr.2]
      have hrest := ih (b.call c).2 hinv
      rw [hpln] at hrest
      exact ⟨fun hall => ⟨hsafe, hrest.mp hall.2.2⟩, fun hall => ⟨hagr.1, hagr.2, hrest.mpr hall.2⟩⟩
    · exact ⟨fun hall => absurd ⟨hall.1, hall.2.1⟩ (call_differs h c hsafe),
        fun hall => absurd hall.1 hsafe⟩

/-- A buffer that continues a vector gives, call by call, the bytes of the plain sequence exactly
when each call is safe. The empty buffer continues the empty vector. -/
theorem vectorWriteBuffer_refines_iff (v : Bytes) (calls : List BufferCall) :
    Refines (ofVector v) ⟨v⟩ calls ↔ SafeRun (ofVector v) calls := by
  have hwritten : (ofVector v).written = v := take_length
  have hiff := refines_iff_safeRun calls (ofVector v) (inv_ofVector v)
  rw [hwritten] at hiff
  exact hiff

/-- A producer that tries a byte and commits none. -/
def scribbler : Writer where
  run
    | [] => ([], .ok 0)
    | _ :: room => (0xFF :: room, .ok 0)
  inside room := by cases room <;> rfl

/-- The byte the producer took back is the first of the zeros. -/
theorem scribble_surfaces :
    ¬ Refines (ofVector []) ⟨[]⟩ [.appendInPlace 1 scribbler, .appendZeros 300] := by
  intro hall
  have hbytes := congrArg head? hall.2.2.2.1
  exact absurd hbytes (by decide +kernel)

/-- Within the room the zeros are written. -/
theorem scribble_overwritten :
    SafeRun (ofVector []) [.appendInPlace 1 scribbler, .appendZeros 3, .finish] ∧
      Refines (ofVector []) ⟨[]⟩ [.appendInPlace 1 scribbler, .appendZeros 3, .finish] := by
  have hsafe : SafeRun (ofVector []) [.appendInPlace 1 scribbler, .appendZeros 3, .finish] :=
    ⟨Or.inr (Or.inr (Or.inr (by decide))), Or.inl (by decide +kernel), trivial, trivial⟩
  exact ⟨hsafe, (vectorWriteBuffer_refines_iff _ _).mpr hsafe⟩

end VectorWriteBuffer

end Fletcher.Core
