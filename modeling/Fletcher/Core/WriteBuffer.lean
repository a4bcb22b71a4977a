import Fletcher.Lib.Bytes
import Fletcher.Lib.Lists

/-!
# The write buffer and the positional writer

`WriteBuffer` is an append-only byte sequence with back-patching: a null
bitfield is laid down as zeros and its bits are OR-ed in later, once the payloads
behind it are known to be null. `PositionalWriter` and its contexts remember only
where such a bitfield starts.

The one lemma every encoder proof rests on is `patchByte_field`: patching bit `k`
of a bitfield changes that bitfield and nothing before or after it.
-/

namespace Fletcher.Core

open Lib

/-- The exceptions the library throws, with their texts. `undefined` stands for a
cast or an access the language gives no meaning to, `diverges` for a loop or a
recursion that does not end. -/
inductive Error where
  | invalidArgument (what : String)
  | outOfRange (what : String)
  | runtimeError (what : String)
  | overflowError (what : String)
  | pubSubError (what : String)
  | undefined
  | diverges
  deriving DecidableEq, Repr

/-- The bytes written so far, `[Data(), Data() + Position())`. -/
structure WriteBuffer where
  bytes : Bytes
  deriving DecidableEq, Repr

namespace WriteBuffer

def empty : WriteBuffer := ⟨[]⟩

variable (b : WriteBuffer)

def position : Nat := b.bytes.length

def append (data : Bytes) : WriteBuffer := ⟨b.bytes ++ data⟩

def appendByte (x : UInt8) : WriteBuffer := b.append [x]

def appendZeros (n : Nat) : WriteBuffer := b.append (List.replicate n 0)

/-- `AppendFixed<uint32_t>(static_cast<uint32_t>(n))`. -/
def appendU32 (n : Nat) : WriteBuffer := b.append (leBytes 4 n)

/-- OR `bits` into the byte at `offset`. -/
def patchByte (offset : Nat) (bits : UInt8) : Except Error WriteBuffer :=
  if b.bytes.length ≤ offset then .error (.outOfRange "WriteBuffer::PatchByte: offset out of range")
  else .ok ⟨b.bytes.modify offset (fun x => x ||| bits)⟩

@[simp] theorem append_append (d e : Bytes) :
    (b.append d).append e = b.append (d ++ e) := by simp [append]

@[simp] theorem append_nil : b.append [] = b := by simp [append]

end WriteBuffer

/-! ## Positional writer -/

/-- Where a struct's null bitfield starts, and how many fields it covers. -/
structure PositionalWriter where
  numFields : Nat
  bitfieldOffset : Nat

/-- Start a struct or a row: lay down a cleared null bitfield. -/
def PositionalWriter.begin (b : WriteBuffer) (numFields : Nat) : PositionalWriter × WriteBuffer :=
  (⟨numFields, b.position⟩, b.appendZeros (bitfieldBytes numFields))

def PositionalWriter.setNull (w : PositionalWriter) (b : WriteBuffer) (k : Nat) :
    Except Error WriteBuffer :=
  if w.numFields ≤ k then .error (.outOfRange "PositionalWriter::SetNull: field_index out of range")
  else b.patchByte (w.bitfieldOffset + k / 8) (UInt8.ofNat (1 <<< (k % 8)))

def WriteBuffer.writeBool (b : WriteBuffer) (v : Bool) : WriteBuffer :=
  b.appendByte (if v then 1 else 0)

/-- `WriteString`: the length is narrowed first, and only that many bytes follow. -/
def WriteBuffer.writeString (b : WriteBuffer) (s : Bytes) : WriteBuffer :=
  let len := s.length % 2 ^ 32
  (b.appendU32 len).append (s.take len)

/-- `WriteBinary`: the length field is narrowed, the data is not. -/
def WriteBuffer.writeBinary (b : WriteBuffer) (data : Bytes) : WriteBuffer :=
  (b.appendU32 data.length).append data

/-- Where a list's element bitfield starts. -/
structure ListContext where
  bitfieldOffset : Nat
  count : Nat

def ListContext.setElementNull (lc : ListContext) (b : WriteBuffer) (k : Nat) :
    Except Error WriteBuffer :=
  b.patchByte (lc.bitfieldOffset + k / 8) (UInt8.ofNat (1 <<< (k % 8)))

/-- `BeginList(static_cast<uint32_t>(n))`. -/
def WriteBuffer.beginList (b : WriteBuffer) (n : Nat) : ListContext × WriteBuffer :=
  let count := n % 2 ^ 32
  let b := b.appendU32 count
  (⟨b.position, count⟩, b.appendZeros (bitfieldBytes count))

/-- A map whose entry count is out and whose keys are being written. -/
structure MapContext where
  count : Nat

/-- `BeginMap(static_cast<uint32_t>(n))`. -/
def WriteBuffer.beginMap (b : WriteBuffer) (n : Nat) : MapContext × WriteBuffer :=
  let count := n % 2 ^ 32
  (⟨count⟩, b.appendU32 count)

/-- The value bitfield, once every key is out. -/
def MapContext.beginValues (mc : MapContext) (b : WriteBuffer) : ListContext × WriteBuffer :=
  (⟨b.position, mc.count⟩, b.appendZeros (bitfieldBytes mc.count))

/-! ## Back-patching -/

/-- Patching bit `k` of a bitfield sets that bit and touches nothing around it. -/
theorem patchByte_field {pre bf post : Bytes} {k : Nat} (h : k / 8 < bf.length) :
    WriteBuffer.patchByte ⟨pre ++ (bf ++ post)⟩ (pre.length + k / 8) (UInt8.ofNat (1 <<< (k % 8)))
      = .ok ⟨pre ++ (orBit bf k ++ post)⟩ := by
  have hin : ¬ (pre ++ (bf ++ post)).length ≤ pre.length + k / 8 := by simp; omega
  rw [WriteBuffer.patchByte, if_neg hin, modify_append_right, modify_append_left _ _ _ _ h]
  rfl

end Fletcher.Core
