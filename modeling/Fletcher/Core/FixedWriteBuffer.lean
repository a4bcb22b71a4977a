import Fletcher.Core.VectorWriteBuffer

/-!
# The fixed write buffer, in the memory it writes to

A `FixedWriteBuffer` is a window into memory it does not own: a transport's payload. The
memory here goes on before and behind the window, so that writing outside it would show.

Whoever holds the buffer reaches it through its calls only, in any order and number, going on
after a call that threw if they like. What no such history can do is said once
(`Keeps`): it cannot move the window, take back bytes, or change a byte outside the window.
-/

namespace Fletcher.Core

open Lib List

variable {b' : FixedWriteBuffer}

structure FixedWriteBuffer where
  memory : Bytes
  base : Nat
  capacity : Nat
  pos : Nat

namespace FixedWriteBuffer

/-- `[Data(), Data() + Position())`. -/
def written (b : FixedWriteBuffer) : Bytes := (b.memory.drop b.base).take b.pos

/-- The window behind the position. -/
def room (b : FixedWriteBuffer) : Bytes :=
  (b.memory.drop (b.base + b.pos)).take (b.capacity - b.pos)

/-- A copy to the position, and the advance. -/
def put (b : FixedWriteBuffer) (data : Bytes) : FixedWriteBuffer :=
  { b with memory := store b.memory (b.base + b.pos) data, pos := b.pos + data.length }

/-- `AppendSlow` and `AppendZerosSlow` alike. -/
def overflow : Error := .overflowError "FixedWriteBuffer: overflow"

def append (b : FixedWriteBuffer) (data : Bytes) : Except Error FixedWriteBuffer :=
  if b.capacity - b.pos < data.length then .error overflow else .ok (b.put data)

def appendByte (b : FixedWriteBuffer) (x : UInt8) : Except Error FixedWriteBuffer :=
  if b.pos = b.capacity then .error overflow else .ok (b.put [x])

def appendZeros (b : FixedWriteBuffer) (len : Nat) : Except Error FixedWriteBuffer :=
  if b.capacity - b.pos < len then .error overflow else .ok (b.put (List.replicate len 0))

def appendU32 (b : FixedWriteBuffer) (n : Nat) : Except Error FixedWriteBuffer :=
  b.append (leBytes 4 n)

def patchU32 (b : FixedWriteBuffer) (offset value : Nat) : Except Error FixedWriteBuffer :=
  if b.pos < 4 ∨ b.pos - 4 < offset then
    .error (.outOfRange "WriteBuffer::PatchU32: offset out of range")
  else .ok { b with memory := store b.memory (b.base + offset) (leBytes 4 value) }

def patchByte (b : FixedWriteBuffer) (offset : Nat) (bits : UInt8) :
    Except Error FixedWriteBuffer :=
  if b.pos ≤ offset then .error (.outOfRange "WriteBuffer::PatchByte: offset out of range")
  else
    match b.memory[b.base + offset]? with
    | none => .error .undefined
    | some x => .ok { b with memory := store b.memory (b.base + offset) [x ||| bits] }

/-- `AppendInPlace`. The refill of a fixed buffer throws. -/
def appendInPlace (b : FixedWriteBuffer) (minBytes : Nat) (writer : Writer) :
    Except Error Unit × FixedWriteBuffer :=
  if minBytes = 0 then
    (.error (.pubSubError "WriteBuffer::AppendInPlace: min_bytes must be non-zero"), b)
  else if 2 ^ 64 - 1 - b.pos < minBytes then
    (.error (.overflowError
      "WriteBuffer::AppendInPlace: min_bytes cannot be satisfied by any window"), b)
  else if b.capacity - b.pos < minBytes then (.error overflow, b)
  else
    let left := writer.run b.room
    let scribbled := { b with memory := store b.memory (b.base + b.pos) left.1 }
    match left.2 with
    | .error e => (.error e, scribbled)
    | .ok used =>
      if b.capacity - b.pos < used then
        (.error (.pubSubError ("WriteBuffer::AppendInPlace: the writer reported more bytes " ++
          "than it was lent; nothing was committed")), scribbled)
      else (.ok (), { scribbled with pos := b.pos + used })

/-- The calls of the base class. `Finish` is not one of them and does nothing here. -/
def call (b : FixedWriteBuffer) : BufferCall → Report × FixedWriteBuffer
  | .append data => settle b (b.append data)
  | .appendByte x => settle b (b.appendByte x)
  | .appendFixed object => settle b (b.append object)
  | .appendZeros len => settle b (b.appendZeros len.toNat)
  | .patchU32 offset value => settle b (b.patchU32 offset.toNat value.toNat)
  | .patchByte offset bits => settle b (b.patchByte offset.toNat bits)
  | .appendInPlace minBytes writer =>
    let r := b.appendInPlace minBytes.toNat writer
    (r.1.map fun _ => none, r.2)
  | .finish => (.ok none, b)

/-- Some history of calls leads from one buffer to the other. -/
def Calls : FixedWriteBuffer → FixedWriteBuffer → Prop :=
  Relation.ReflTransGen fun b b' => ∃ c, b' = (b.call c).2

/-! ## What a call can do -/

/-- The window lies in the memory, and the position in the window. -/
structure Inv (b : FixedWriteBuffer) : Prop where
  pos_le : b.pos ≤ b.capacity
  inside : b.base + b.capacity ≤ b.memory.length

/-- The outcome of a call: at most one store inside the window, and a position that has not gone
back or left the window. -/
def Stored (b b' : FixedWriteBuffer) : Prop :=
  ∃ offset data pos, offset + data.length ≤ b.capacity ∧ b.pos ≤ pos ∧ pos ≤ b.capacity ∧
    b' = { b with memory := store b.memory (b.base + offset) data, pos := pos }

section Stored

variable {b : FixedWriteBuffer} (h : b.Inv)
include h

theorem stored_self : b.Stored b :=
  ⟨0, [], b.pos, Nat.zero_le _, Nat.le_refl _, h.pos_le, by rw [store_nil]⟩

theorem stored_put {data : Bytes} (hfit : data.length ≤ b.capacity - b.pos) :
    b.Stored (b.put data) := by
  have hpos := h.pos_le
  exact ⟨b.pos, data, b.pos + data.length, by omega, Nat.le_add_right _ _, by omega, rfl⟩

theorem stored_settle {r : Except Error FixedWriteBuffer} (hr : ∀ b', r = .ok b' → b.Stored b') :
    b.Stored (settle b r).2 := by
  cases r with
  | error e => exact stored_self h
  | ok b' => exact hr b' rfl

theorem stored_append {data : Bytes} (hok : b.append data = .ok b') :
    b.Stored b' := by
  unfold append at hok
  split at hok
  · cases hok
  · next hfit =>
    cases hok
    exact stored_put h (Nat.le_of_not_lt hfit)

theorem stored_appendByte {x : UInt8} (hok : b.appendByte x = .ok b') :
    b.Stored b' := by
  unfold appendByte at hok
  split at hok
  · cases hok
  · next _ =>
    cases hok
    have hpos := h.pos_le
    refine stored_put h ?_
    rw [length_singleton]
    omega

theorem stored_appendZeros {len : Nat} (hok : b.appendZeros len = .ok b') :
    b.Stored b' := by
  unfold appendZeros at hok
  split at hok
  · cases hok
  · next _ =>
    cases hok
    refine stored_put h ?_
    rw [length_replicate]
    omega

theorem stored_patchU32 {offset value : Nat}
    (hok : b.patchU32 offset value = .ok b') : b.Stored b' := by
  unfold patchU32 at hok
  split at hok
  · cases hok
  · next _ =>
    cases hok
    have hpos := h.pos_le
    refine ⟨offset, leBytes 4 value, b.pos, ?_, Nat.le_refl _, hpos, rfl⟩
    rw [leBytes_length]
    omega

theorem stored_patchByte {offset : Nat} {bits : UInt8}
    (hok : b.patchByte offset bits = .ok b') : b.Stored b' := by
  unfold patchByte at hok
  split at hok
  · cases hok
  · next _ =>
    have hpos := h.pos_le
    split at hok
    · cases hok
    · cases hok
      refine ⟨offset, [_], b.pos, ?_, Nat.le_refl _, hpos, rfl⟩
      rw [length_singleton]
      omega

theorem room_length : b.room.length = b.capacity - b.pos := by
  have hins := h.inside
  rw [room, length_take, length_drop]
  omega

/-- Whatever a writer does to its room and reports, the store is in the room. -/
theorem stored_appendInPlace (minBytes : Nat) (writer : Writer) :
    b.Stored (b.appendInPlace minBytes writer).2 := by
  have hpos := h.pos_le
  have hleft : (writer.run b.room).1.length = b.capacity - b.pos := by
    rw [writer.inside, room_length h]
  unfold appendInPlace
  split
  · exact stored_self h
  split
  · exact stored_self h
  split
  · exact stored_self h
  dsimp only
  split
  · exact ⟨b.pos, _, b.pos, by omega, Nat.le_refl _, hpos, rfl⟩
  · split
    · exact ⟨b.pos, _, b.pos, by omega, Nat.le_refl _, hpos, rfl⟩
    · exact ⟨b.pos, _, b.pos + _, by omega, Nat.le_add_right _ _, by omega, rfl⟩

theorem stored_call (c : BufferCall) : b.Stored (b.call c).2 := by
  cases c with
  | append _ => exact stored_settle h fun _ => stored_append h
  | appendByte x => exact stored_settle h fun _ => stored_appendByte h
  | appendFixed _ => exact stored_settle h fun _ => stored_append h
  | appendZeros _ => exact stored_settle h fun _ => stored_appendZeros h
  | patchU32 offset _ => exact stored_settle h fun _ => stored_patchU32 h
  | patchByte offset _ => exact stored_settle h fun _ => stored_patchByte h
  | appendInPlace minBytes writer => exact stored_appendInPlace h minBytes.toNat writer
  | finish => exact stored_self h

end Stored

/-! ## What a history of calls keeps -/

/-- The window has not moved, the position has not gone back, and outside the window the memory
is as it was. -/
structure Keeps (b b' : FixedWriteBuffer) : Prop where
  base_eq : b'.base = b.base
  capacity_eq : b'.capacity = b.capacity
  pos_le : b.pos ≤ b'.pos
  length_eq : b'.memory.length = b.memory.length
  before : b'.memory.take b.base = b.memory.take b.base
  behind : b'.memory.drop (b.base + b.capacity) = b.memory.drop (b.base + b.capacity)

theorem Keeps.refl (b : FixedWriteBuffer) : b.Keeps b := ⟨rfl, rfl, Nat.le_refl _, rfl, rfl, rfl⟩

theorem Keeps.trans {b b'' : FixedWriteBuffer} (h : b.Keeps b') (h' : b'.Keeps b'') :
    b.Keeps b'' where
  base_eq := h'.base_eq.trans h.base_eq
  capacity_eq := h'.capacity_eq.trans h.capacity_eq
  pos_le := Nat.le_trans h.pos_le h'.pos_le
  length_eq := h'.length_eq.trans h.length_eq
  before := by
    have hbef := h'.before
    rw [h.base_eq] at hbef
    exact hbef.trans h.before
  behind := by
    have hbeh := h'.behind
    rw [h.base_eq, h.capacity_eq] at hbeh
    exact hbeh.trans h.behind

theorem Stored.keeps {b : FixedWriteBuffer} (h : b.Inv) (hsto : b.Stored b') :
    b'.Inv ∧ b.Keeps b' := by
  obtain ⟨offset, data, _, _, hback, hpos, rfl⟩ := hsto
  have hins := h.inside
  have hpl : b.base + offset + data.length ≤ b.memory.length := by omega
  refine ⟨⟨hpos, ?_⟩, ⟨rfl, rfl, hback, store_length hpl, ?_, ?_⟩⟩
  · show b.base + b.capacity ≤ (store b.memory (b.base + offset) data).length
    rw [store_length hpl]
    exact hins
  · exact take_store hpl (Nat.le_add_right _ _)
  · exact drop_store hpl (by omega)

/-- One call, then by induction every history. -/
theorem Calls.keeps {b : FixedWriteBuffer} (h : b.Inv) (hcalls : b.Calls b') :
    b'.Inv ∧ b.Keeps b' := by
  induction hcalls with
  | refl => exact ⟨h, .refl b⟩
  | tail _ hstep ih =>
    obtain ⟨c, rfl⟩ := hstep
    obtain ⟨hinv, hkeeps⟩ := (stored_call ih.1 c).keeps ih.1
    exact ⟨hinv, ih.2.trans hkeeps⟩

theorem written_length {b : FixedWriteBuffer} (h : b.Inv) : b.written.length = b.pos := by
  have hpos := h.pos_le
  have hins := h.inside
  rw [written, length_take, length_drop]
  omega

end FixedWriteBuffer

end Fletcher.Core
