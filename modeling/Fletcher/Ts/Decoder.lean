import Fletcher.Ts.Encoder
import Fletcher.Lib.Cursor

/-!
# The TypeScript decoder

`decodePositional` and its readers. The cursor checks no bounds of its own. A word is read
through a `DataView`, which throws a `RangeError` past the end; a single byte, a slice and a
null bit are read through the array, where nothing is thrown: a byte past the end is
`undefined`, a slice is cut short, and a bit is clear.

`decodeValue_meets` says what becomes of bytes that denote a value. The decoder returns a
JavaScript value that shows it exactly when the value is `Clean` and every bitfield in it is
read for what it says, and it has then consumed exactly those bytes. Only bits of index
`2 ^ 31` and above can be misread.
-/

namespace Fletcher.Ts

open Lib Arrow Bridge Cursor List

abbrev ReadCursor := Cursor JsError

section Readers

variable (R : Runtime) (data : Bytes)

/-- `data[offset + (index >> 3)]`, and its bit. What is not there has none. -/
def isNullBit (offset index : Nat) : Bool :=
  if 0 ≤ bitByte offset index then
    (data.getD (bitByte offset index).toNat 0).toNat.testBit (index % 8)
  else false

/-- The little-endian words, through the `DataView`. -/
def readWord (w : Nat) : ReadCursor Bytes := fun pos =>
  if pos + w ≤ data.length then .ok ((data.drop pos).take w, pos + w) else .error .rangeError

/-- `data[pos++]`. -/
def readU8 : ReadCursor (Option UInt8) := fun pos => .ok (data[pos]?, pos + 1)

def readBytes (n : Nat) : ReadCursor Bytes := fun pos => .ok ((data.drop pos).take n, pos + n)

def readU32 : ReadCursor Nat := do
  let word ← readWord data 4
  pure (ofLe word)

/-- `readI8`, `readI16` and `readI32`. -/
def readSigned (w : Nat) : ReadCursor Js := do
  let word ← readWord data w
  pure (.number (signed word))

/-- `readU16` and `readU32` as values. -/
def readUnsigned (w : Nat) : ReadCursor Js := do
  let word ← readWord data w
  pure (.number (ofLe word))

def readI64 : ReadCursor Js := do
  let word ← readWord data 8
  pure (.bigint (signed word))

def readU64 : ReadCursor Js := do
  let word ← readWord data 8
  pure (.bigint (ofLe word))

/-- `readF32` and `readF64`. -/
def readFloat (w : Nat) : ReadCursor Js := do
  let word ← readWord data w
  pure (.float word)

def readScalar (wireType : WireTypeId) : ReadCursor Js :=
  match wireType with
  | .bool => do
    let b ← readU8 data
    -- `undefined !== 0`
    pure (.bool (b != some 0))
  | .int8 => readSigned data 1
  | .int16 => readSigned data 2
  | .int32 | .date32 | .time32 | .intervalMonths => readSigned data 4
  | .int64 | .date64 | .time64 | .timestampNano | .durationNano => readI64 data
  | .uint8 => do
    let b ← readU8 data
    pure (match b with
      | some b => .number b.toNat
      | none => .undefined)
  | .uint16 | .halfFloat => readUnsigned data 2
  | .uint32 => readUnsigned data 4
  | .uint64 => readU64 data
  | .float32 => readFloat data 4
  | .float64 => readFloat data 8
  | .string | .largeString | .stringView => do
    let len ← readU32 data
    let bytes ← readBytes data len
    pure (.string (R.decodeText bytes))
  | .binary | .largeBinary | .binaryView => do
    let len ← readU32 data
    let bytes ← readBytes data len
    pure (.bytes bytes)
  | .fixedSizeBinary => fail (.error "FIXED_SIZE_BINARY must be handled at call site")
  | .intervalDayTime => do
    let days ← readSigned data 4
    let ms ← readSigned data 4
    pure (.object [("days", days), ("milliseconds", ms)])
  | .intervalMonthDayNano => do
    let months ← readSigned data 4
    let days ← readSigned data 4
    let nanos ← readI64 data
    pure (.object [("months", months), ("days", days), ("nanoseconds", nanos)])
  | .decimal128 => do
    let bytes ← readBytes data 16
    pure (.bytes bytes)
  | .decimal256 => do
    let bytes ← readBytes data 32
    pure (.bytes bytes)
  | wireType => fail (.error ("readScalar: unsupported wire type 0x" ++ wireType.hex))

/-- A slot whose bit is set has nothing behind it. -/
def decodeSlot (bfStart : Nat) (x : ReadCursor Js) (i : Nat) : ReadCursor Js :=
  if isNullBit data bfStart i then pure .null else x

/-- The loop over the slots of a run. -/
def decodeSlots (bfStart : Nat) : List (ReadCursor Js) → Nat → ReadCursor (List Js)
  | [], _ => pure []
  | x :: xs, i => do
    let v ← decodeSlot data bfStart x i
    let vs ← decodeSlots bfStart xs (i + 1)
    pure (v :: vs)

/-- Step over the bitfield of a run and decode the slots behind it. -/
def decodeRun (xs : List (ReadCursor Js)) : ReadCursor (List Js) := fun pos =>
  decodeSlots data pos xs 0 (pos + bitfieldBytes xs.length)

def decodeStruct (fields : List (String × ReadCursor Js)) : ReadCursor Js := do
  let vs ← decodeRun data (fields.map Prod.snd)
  pure (.object (assignAll [] ((fields.map Prod.fst).zip vs)))

def decodeList (element : Option (ReadCursor Js)) : ReadCursor Js :=
  match element with
  | none => fail (.error "List field missing element descriptor")
  | some x => do
    let count ← readU32 data
    let vs ← decodeRun data (List.replicate count x)
    pure (.array vs)

def decodeFixedSizeList (element : Option (ReadCursor Js)) (fixedSize : Option Nat) :
    ReadCursor Js :=
  match element with
  | none => fail (.error "FixedSizeList field missing element descriptor")
  | some x => do
    let vs ← decodeRun data (List.replicate (fixedSize.getD 0) x)
    pure (.array vs)

def decodeKeys : List (ReadCursor Js) → ReadCursor (List Js)
  | [] => pure []
  | x :: xs => do
    let key ← x
    let keys ← decodeKeys xs
    pure (key :: keys)

def decodeMap (key value : Option (ReadCursor Js)) : ReadCursor Js :=
  match key, value with
  | some k, some v => do
    let count ← readU32 data
    let keys ← decodeKeys (List.replicate count k)
    let vs ← decodeRun data (List.replicate count v)
    pure (.map (mapSetAll R [] (keys.zip vs)))
  | _, _ => fail (.error "Map field missing key/value descriptors")

/-- `fields[typeCode]`, where the code is in range. -/
def unionChild (fields : List (String × ReadCursor Js)) (typeCode : Int) : ReadCursor Js :=
  match if typeCode < 0 then none else fields[typeCode.toNat]? with
  | some f => f.2
  | none => fail (.error ("Union: unknown type_code " ++ toString typeCode))

def decodeUnion (fields : List (String × ReadCursor Js)) : ReadCursor Js := do
  let word ← readWord data 1
  unionChild fields (signed word)

mutual

def decodeValue : FieldDescriptor → ReadCursor Js
  | ⟨_, wireType, _, element, mapKey, mapValue, fields, fixedSize⟩ =>
    match wireType with
    | .struct => decodeStruct data (decodeFields fields)
    | .list | .largeList => decodeList data (decodeOption element)
    | .fixedSizeList => decodeFixedSizeList data (decodeOption element) fixedSize
    | .map => decodeMap R data (decodeOption mapKey) (decodeOption mapValue)
    | .sparseUnion | .denseUnion => decodeUnion data (decodeFields fields)
    | wireType => readScalar R data wireType

def decodeFields : List FieldDescriptor → List (String × ReadCursor Js)
  | [] => []
  | fd :: fds => (fd.name, decodeValue fd) :: decodeFields fds

def decodeOption : Option FieldDescriptor → Option (ReadCursor Js)
  | none => none
  | some fd => some (decodeValue fd)

end

end Readers

/-- The record's own properties. What is behind the last field is not looked at. -/
def decodePositional (R : Runtime) (schema : SchemaDescriptor) (data : Bytes) :
    Except JsError (List (String × Js)) :=
  match decodeRun data ((decodeFields R data schema).map Prod.snd) 0 with
  | .ok (vs, _) => .ok (assignAll [] (((decodeFields R data schema).map Prod.fst).zip vs))
  | .error e => .error e

theorem decodeFields_eq_map (R : Runtime) (data : Bytes) : ∀ fds, decodeFields R data fds =
    fds.map fun fd => (fd.name, decodeValue R data fd)
  | [] => rfl
  | fd :: fds => by rw [decodeFields, decodeFields_eq_map R data fds]; rfl

/-- The wire types `decodeValue` does not hand on to `readScalar`. -/
def isComposite : WireTypeId → Bool
  | .struct | .list | .largeList | .fixedSizeList | .map | .sparseUnion | .denseUnion => true
  | _ => false

theorem decodeValue_scalar {R : Runtime} {data : Bytes} {fd : FieldDescriptor}
    (h : isComposite fd.wireType = false) :
    decodeValue R data fd = readScalar R data fd.wireType := by
  obtain ⟨_, wireType, _, _, _, _, _, _⟩ := fd
  cases wireType with
  | struct | list | largeList | fixedSizeList | map | sparseUnion | denseUnion => cases h
  | _ => rfl

/-! ## Reading what is there -/

section Reading

variable {R : Runtime} {data bs : Bytes} {pos w : Nat}

theorem readWord_at (hw : bs.length = w) (h : At data pos bs) :
    readWord data w pos = .ok (bs, pos + w) := by
  obtain ⟨pre, rest, rfl, rfl⟩ := h
  subst hw
  have hle : pre.length + bs.length ≤ (pre ++ (bs ++ rest)).length := by
    simp only [length_append]
    omega
  rw [readWord, if_pos hle, drop_left, take_left]

theorem readBytes_at (hw : bs.length = w) (h : At data pos bs) :
    readBytes data w pos = .ok (bs, pos + w) := by
  obtain ⟨pre, rest, rfl, rfl⟩ := h
  rw [readBytes, drop_left, ← hw, take_left]

theorem readU32_at {n : Nat} (hn : n < 2 ^ 32) (h : At data pos (leBytes 4 n)) :
    readU32 data pos = .ok (n, pos + 4) := by
  rw [readU32, bind_of_ok (readWord_at (leBytes_length 4 n) h),
    ofLe_leBytes (Nat.lt_of_lt_of_eq hn (by decide))]
  rfl

theorem readU8_at {c : UInt8} (h : At data pos [c]) : readU8 data pos = .ok (some c, pos + 1) := by
  obtain ⟨pre, rest, rfl, rfl⟩ := h
  rw [readU8, getElem?_append_right (Nat.le_refl _), Nat.sub_self]
  rfl

/-- A bit of low index is where it belongs. -/
theorem isNullBit_low (h : At data pos bs) {i : Nat} (hi : i < 2 ^ 31)
    (hbs : i / 8 < bs.length) : isNullBit data pos i = readBit bs i := by
  obtain ⟨pre, rest, rfl, rfl⟩ := h
  rw [isNullBit, bitByte_low hi, if_pos (Int.natCast_nonneg _), Int.toNat_natCast, readBit,
    getD_eq_getElem?_getD, getElem?_append_right (Nat.le_add_right _ _),
    Nat.add_sub_cancel_left, getElem?_append_left hbs, getD_eq_getElem?_getD]

/-! ## Bitfields -/

/-- The bits of high index are read for what they are. -/
def HighRead (data : Bytes) (r : Run) : Prop :=
  ∀ i flag, 2 ^ 31 ≤ i → r.2[i]? = some flag → isNullBit data r.1 i = flag

def BitsRead (data : Bytes) (rs : List Run) : Prop := ∀ r ∈ rs, HighRead data r

theorem bitsRead_nil : BitsRead data [] := by
  intro r hr
  cases hr

theorem bitsRead_append (rs rs' : List Run) :
    BitsRead data (rs ++ rs') ↔ BitsRead data rs ∧ BitsRead data rs' := by
  simp only [BitsRead, mem_append, or_imp, forall_and]

theorem bitsRead_cons (r : Run) (rs : List Run) :
    BitsRead data (r :: rs) ↔ HighRead data r ∧ BitsRead data rs := by
  simp only [BitsRead, mem_cons, or_imp, forall_and, forall_eq]

/-- Every bit of the run is read for what it is. -/
theorem highRead_iff (flags : List Bool) (h : At data pos bs)
    (hbs : bs.length = bitfieldBytes flags.length) (hflg : nullFlags bs flags.length = flags) :
    HighRead data (pos, flags) ↔
      ∀ i flag, flags[i]? = some flag → isNullBit data pos i = flag := by
  constructor
  · intro hread i flag hi
    rcases Nat.lt_or_ge i (2 ^ 31) with hlow | hhigh
    · have hlt : i < flags.length := (List.getElem?_eq_some_iff.mp hi).1
      rw [isNullBit_low h hlow (hbs ▸ div_lt_bitfieldBytes hlt)]
      rw [← hflg, nullFlags, getElem?_map, getElem?_range hlt] at hi
      exact Option.some.inj hi
    · exact hread i flag hhigh hi
  · intro hread i flag _ hi
    exact hread i flag hi

end Reading

theorem unionChild_of_code {fields : List (String × ReadCursor Js)} {typeCode : Int}
    {f : String × ReadCursor Js} (h0 : 0 ≤ typeCode) (hf : fields[typeCode.toNat]? = some f) :
    unionChild fields typeCode = f.2 := by
  rw [unionChild, if_neg (by omega), hf]

theorem unionChild_eq_ok {fields : List (String × ReadCursor Js)} {typeCode : Int} {pos : Nat}
    {p : Js × Nat} (h : unionChild fields typeCode pos = .ok p) :
    ∃ f, 0 ≤ typeCode ∧ fields[typeCode.toNat]? = some f ∧ f.2 pos = .ok p := by
  by_cases hneg : typeCode < 0
  · rw [unionChild, if_pos hneg] at h
    cases h
  · cases hf : fields[typeCode.toNat]? with
    | none =>
      rw [unionChild, if_neg hneg, hf] at h
      cases h
    | some f =>
      rw [unionChild_of_code (by omega) hf] at h
      exact ⟨f, by omega, rfl, h⟩

/-! ## No value is `null` -/

theorem readScalar_ne_null {R : Runtime} {data : Bytes} {wireType : WireTypeId} {pos pos' : Nat}
    {js : Js} (h : readScalar R data wireType pos = .ok (js, pos')) : js ≠ .null := by
  rintro rfl
  cases wireType with
  | unknown | fixedSizeBinary | struct | list | largeList | fixedSizeList | map | sparseUnion
  | denseUnion => cases h
  | uint8 =>
    obtain ⟨b, _, -, h⟩ := bind_eq_ok.mp h
    cases b <;> cases h
  | string | largeString | stringView | binary | largeBinary | binaryView | intervalDayTime =>
    obtain ⟨_, _, -, h⟩ := bind_eq_ok.mp h
    obtain ⟨_, _, -, h⟩ := bind_eq_ok.mp h
    cases h
  | intervalMonthDayNano =>
    obtain ⟨_, _, -, h⟩ := bind_eq_ok.mp h
    obtain ⟨_, _, -, h⟩ := bind_eq_ok.mp h
    obtain ⟨_, _, -, h⟩ := bind_eq_ok.mp h
    cases h
  | _ =>
    obtain ⟨_, _, -, h⟩ := bind_eq_ok.mp h
    cases h

theorem decodeValue_ne_null {R : Runtime} {data : Bytes} {fd : FieldDescriptor} {pos pos' : Nat}
    {js : Js} (h : decodeValue R data fd pos = .ok (js, pos')) : js ≠ .null := by
  induction fd generalizing js pos pos' with
  | mk _ wireType _ element mapKey mapValue _ _ _ _ _ ih =>
    cases wireType with
    | struct =>
      rintro rfl
      obtain ⟨vs, mid, -, hret⟩ := bind_eq_ok.mp h
      cases hret
    | list | largeList =>
      rintro rfl
      cases element with
      | none => cases h
      | some e =>
        obtain ⟨count, mid, -, h⟩ := bind_eq_ok.mp h
        obtain ⟨vs, mid', -, hret⟩ := bind_eq_ok.mp h
        cases hret
    | fixedSizeList =>
      rintro rfl
      cases element with
      | none => cases h
      | some e =>
        obtain ⟨vs, mid, -, hret⟩ := bind_eq_ok.mp h
        cases hret
    | map =>
      rintro rfl
      cases mapKey with
      | none => cases h
      | some k =>
        cases mapValue with
        | none => cases h
        | some v =>
          obtain ⟨count, mid, -, h⟩ := bind_eq_ok.mp h
          obtain ⟨_, mid', -, h⟩ := bind_eq_ok.mp h
          obtain ⟨vs, _, -, hret⟩ := bind_eq_ok.mp h
          cases hret
    | sparseUnion | denseUnion =>
      obtain ⟨_, mid, -, h⟩ := bind_eq_ok.mp h
      obtain ⟨f, -, hf, h⟩ := unionChild_eq_ok h
      rw [decodeFields_eq_map, getElem?_map, Option.map_eq_some_iff] at hf
      obtain ⟨fd, hfd, rfl⟩ := hf
      exact ih fd (mem_of_getElem? hfd) h
    | _ =>
      rw [decodeValue_scalar rfl] at h
      exact readScalar_ne_null h

end Fletcher.Ts
