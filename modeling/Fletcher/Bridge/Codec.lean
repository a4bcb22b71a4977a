import Fletcher.Arrow.Builder
import Fletcher.Core.WriteBuffer
import Fletcher.Lib.Reader

/-!
# The row codec

`Codec::EncodeRow` and `Codec::DecodeRow`, function by function. The encoder has
two recursive paths: `encodeScalarValue` walks the row's scalars, and
`encodeElement` walks arrays by index once a list or a map is entered. The
decoder has one, `decodePositionalValue`, over a cursor into the buffer.

Exceptions are `Except Error`. What the source gets from Arrow, a status or a
text, comes from an `Arrow.Api`.
-/

namespace Fletcher.Bridge

open Lib Arrow Fletcher.Core

/-- The wire width of a fixed-width type, 0 for every other type. -/
def fixedWidth : DataType → Nat
  | .bool => 1
  | .fixed t => t.width
  | _ => 0

/-! ## Encoding -/

/-- An encoder of one value: it extends the buffer or throws. -/
abbrev Encode := WriteBuffer → Except Error WriteBuffer

def checkCountFits (count : Nat) (what : String) : Except Error Unit :=
  if 2 ^ 32 - 1 < count then
    .error (.invalidArgument ("Codec: " ++ what ++ " exceeds 4 GiB limit"))
  else .ok ()

variable (A : Api)

def checkStructurallyValid (t : DataType) (a : ArrayData) (what : String) :
    Except Error Unit :=
  match A.validate t a with
  | none => .ok ()
  | some st => .error (.invalidArgument ("Codec: malformed " ++ what ++ ": " ++ st))

/-- The loop every run of slots is written by: mark the slot at `k` null, or
write its payload. -/
def writeSlots (setNull : WriteBuffer → Nat → Except Error WriteBuffer) :
    List (Option Encode) → Nat → Encode
  | [], _, b => .ok b
  | none :: items, k, b => do
    let b ← setNull b k
    writeSlots setNull items (k + 1) b
  | some enc :: items, k, b => do
    let b ← enc b
    writeSlots setNull items (k + 1) b

/-- The payload loop alone, for runs whose null bits are already set. -/
def writePayloads : List (Option Encode) → Encode
  | [], b => .ok b
  | none :: items, b => writePayloads items b
  | some enc :: items, b => do
    let b ← enc b
    writePayloads items b

/-- The null-bit loop alone. -/
def setElementNulls (lc : ListContext) : List Bool → Nat → Encode
  | [], _, b => .ok b
  | flag :: flags, k, b => do
    let b ← if flag then lc.setElementNull b k else .ok b
    setElementNulls lc flags (k + 1) b

/-- A slot of an array: nothing when it is null, the element's encoder otherwise. -/
def elementSlot (t : DataType) (encode : ArrayData → Nat → Encode) (a : ArrayData) (i : Nat) :
    Option Encode :=
  if a.isNull t i then none else some (encode a i)

/-- PositionalWriter has no fixed-size-list primitive: a list's bitfield, no count. -/
def beginFixedSizeList (b : WriteBuffer) (n : Nat) : ListContext × WriteBuffer :=
  (⟨b.position, n⟩, b.appendZeros (bitfieldBytes n))

/-- The body of a list: element null bits, then the payloads. A run of fixed-width
elements with no null goes out in one append from the values buffer. -/
def encodeElements (lc : ListContext) (a : ArrayData) (start count : Nat) (t : DataType)
    (encode : ArrayData → Nat → Encode) : Encode := fun b => do
  let indices := List.range' start count
  let b ← setElementNulls lc (indices.map (a.isNull t)) 0 b
  if count = 0 then .ok b
  else
    let anyNull := (indices.map (a.isNull t)).any id
    match t, a with
    | .fixed ft, .fixed s values =>
      if !anyNull && 0 < ft.width then
        .ok (b.append ((values.drop ((s.offset + start) * ft.width)).take (count * ft.width)))
      else writePayloads (indices.map (elementSlot t encode a)) b
    | _, _ => writePayloads (indices.map (elementSlot t encode a)) b

/-- The keys of a map, none of which may be null. -/
def encodeKeys (t : DataType) (encode : ArrayData → Nat → Encode) (keys : ArrayData) :
    List Nat → Encode
  | [], b => .ok b
  | j :: js, b =>
    if keys.isNull t j then .error (.invalidArgument "Codec: map key must not be null")
    else do
      let b ← encode keys j b
      encodeKeys t encode keys js b

/-- Count, keys, value bitfield, values: entries `off .. off + len` of a map. -/
def encodeMapEntries (kt vt : DataType) (encodeKey encodeItem : ArrayData → Nat → Encode)
    (keys items : ArrayData) (off len : Nat) : Encode := fun b => do
  checkCountFits len "map entry count"
  let indices := List.range' off len
  let (mc, b) := b.beginMap len
  let b ← encodeKeys kt encodeKey keys indices b
  let (vals, b) := mc.beginValues b
  writeSlots vals.setElementNull (indices.map (elementSlot vt encodeItem items)) 0 b

/-- The fields of a struct: its bitfield, then slot after slot. -/
def encodeFields (items : List (Option Encode)) (numFields : Nat) : Encode := fun b =>
  let (w, b) := PositionalWriter.begin b numFields
  writeSlots w.setNull items 0 b

mutual

/-- One non-null value of the type at index `i` of an array. -/
def encodeElement (A : Api) : DataType → ArrayData → Nat → Encode
  | .bool, .bool s values, i, b => .ok (b.writeBool (values.getD (s.offset + i) false))
  | .fixed t, .fixed s values, i, b =>
    .ok (b.append (ArrayData.slotBytes values t.width (s.offset + i)))
  | .var _, a, i, b =>
    match a.getView i with
    | some v => do
      checkCountFits v.length "variable-length element"
      .ok (b.writeBinary v)
    | none => .error .undefined
  | .struct fields, .struct s children, i, b =>
    encodeFields (List.zipWith (fun field c => field c i) (fieldElements A fields)
      (ArrayData.fields s children)) fields.length b
  | .list _ ⟨_, t, _⟩, .list s offsets values, i, b => do
    let (off, len) := ArrayData.valueRange s offsets i
    checkCountFits len "list element count"
    let (lc, b) := b.beginList len
    encodeElements lc values off len t (encodeElement A t) b
  | .fixedSizeList ⟨_, t, _⟩ n, .fixedSizeList s values, i, b =>
    let (lc, b) := beginFixedSizeList b n
    encodeElements lc values ((s.offset + i) * n) n t (encodeElement A t) b
  | .map ⟨_, kt, _⟩ ⟨_, vt, _⟩ _, .map s offsets keys items, i, b =>
    let (off, len) := ArrayData.valueRange s offsets i
    encodeMapEntries kt vt (encodeElement A kt) (encodeElement A vt) keys items off len b
  | .union _ fields codes, a, i, b =>
    match a.unionSlot codes i with
    | some u =>
      match (childElements A fields)[u.child]? with
      | some encode =>
        let (c, j) := a.unionField u i
        encode c j (b.appendByte u.code)
      | none => .error .undefined
    | none => .error .undefined
  | .dictionary _ t _, .dictionary s indices values, i, b =>
    let idx := indices.getD (s.offset + i) 0
    if values.isNull t idx then .error (.invalidArgument "Codec: dictionary entry is null")
    else encodeElement A t values idx b
  | .unsupported name, _, _, _ =>
    .error (.invalidArgument ("Codec: unsupported Arrow type: " ++ A.toString (.unsupported name)))
  | _, _, _, _ => .error .undefined

/-- Each field's slot of a struct element. -/
def fieldElements (A : Api) : List Field → List (ArrayData → Nat → Option Encode)
  | [] => []
  | ⟨_, t, _⟩ :: fs => elementSlot t (encodeElement A t) :: fieldElements A fs

/-- Each child's encoder of a union element. -/
def childElements (A : Api) : List Field → List (ArrayData → Nat → Encode)
  | [] => []
  | ⟨_, t, _⟩ :: fs => encodeElement A t :: childElements A fs

end

/-- Only scalar value types are supported under a dictionary. -/
def ensureDictionaryValueSupported (t : DataType) : Except Error Unit :=
  match t with
  | .struct _ | .list _ _ | .fixedSizeList _ _ | .map _ _ _ | .union _ _ _ | .dictionary _ _ _ =>
    .error (.invalidArgument ("Fletcher dictionary support: the dictionary value type must be a " ++
      "primitive/scalar type (got " ++ A.toString t ++
      "). Nested dictionary value types (struct/list/map/union/nested dictionary) " ++
      "are not supported."))
  | _ => .ok ()

/-- `detail::EncodeScalar` for the leaf scalars. -/
def encodeLeaf : Scalar → Encode
  | .bool v, b => .ok (b.appendByte (if v then 1 else 0))
  | .fixed v, b => .ok (b.append v.repr)
  | .binary _ data, b =>
    if 2 ^ 32 - 1 < data.length then
      .error (.invalidArgument "EncodeScalar: variable-length field exceeds 4 GiB limit")
    else .ok ((b.appendU32 data.length).append data)
  | _, _ => .error .undefined

/-- `detail::EncodeScalar`. It goes by the scalar's own type; a dictionary scalar is
written as the value it stands for. -/
def encodeScalar : Scalar → Encode
  | .dictionary t index values, b => do
    ensureDictionaryValueSupported A t
    match Scalar.getEncodedValue t index values with
    | some value =>
      if value.isNull then
        .error (.invalidArgument "EncodeScalar: dictionary entry is null or unresolvable")
      else encodeLeaf value b
    | none => .error (.invalidArgument "EncodeScalar: dictionary entry is null or unresolvable")
  | s, b => encodeLeaf s b

/-- A slot of a struct or sparse union scalar. -/
def scalarSlot (encode : Scalar → Encode) (s : Scalar) : Option Encode :=
  if s.isNull then none else some (encode s)

mutual

/-- One non-null field or child value, from its scalar. -/
def encodeScalarValue (A : Api) : DataType → Scalar → Encode
  | .struct fields, .struct cs, b =>
    encodeFields (List.zipWith scalarSlot (scalarEncoders A fields) cs) fields.length b
  | .list _ ⟨_, t, _⟩, .list a, b => do
    checkStructurallyValid A t a "list value"
    checkCountFits a.length "list element count"
    let (lc, b) := b.beginList a.length
    encodeElements lc a 0 a.length t (encodeElement A t) b
  | .fixedSizeList ⟨_, t, _⟩ n, .list a, b => do
    checkStructurallyValid A t a "fixed_size_list value"
    if a.length = n then
      let (lc, b) := beginFixedSizeList b n
      encodeElements lc a 0 n t (encodeElement A t) b
    else
      .error (.invalidArgument ("Codec: fixed_size_list value length (" ++ toString a.length ++
        ") does not match schema list_size (" ++ toString n ++ ")"))
  | .map ⟨kn, kt, kb⟩ ⟨vn, vt, vb⟩ _, .map entries, b => do
    checkStructurallyValid A (.struct [⟨kn, kt, kb⟩, ⟨vn, vt, vb⟩]) entries "map entries"
    match entries with
    | .struct s [keys, items] =>
      encodeMapEntries kt vt (encodeElement A kt) (encodeElement A vt)
        (keys.slice s.offset s.length) (items.slice s.offset s.length) 0 s.length b
    | _ => .error .undefined
  | .union .sparse fields codes, .sparseUnion code cs, b =>
    match childId codes code with
    | some k =>
      match cs[k]?, (scalarEncoders A fields)[k]? with
      | some c, some encode => encode c (b.appendByte code)
      | none, _ => .error (.invalidArgument "Codec: invalid sparse union type_code")
      | _, none => .error .undefined
    | none => .error (.invalidArgument "Codec: invalid sparse union type_code")
  | .union .dense fields codes, .denseUnion code c, b =>
    match childId codes code with
    | some k =>
      match (scalarEncoders A fields)[k]? with
      | some encode => encode c (b.appendByte code)
      | none => .error .undefined
    | none => .error (.invalidArgument "Codec: invalid dense union type_code")
  | .struct _, _, _ | .list _ _, _, _ | .fixedSizeList _ _, _, _ | .map _ _ _, _, _
  | .union _ _ _, _, _ => .error .undefined
  | _, s, b => encodeScalar A s b

/-- The encoder of each field's type. -/
def scalarEncoders (A : Api) : List Field → List (Scalar → Encode)
  | [] => []
  | ⟨_, t, _⟩ :: fs => encodeScalarValue A t :: scalarEncoders A fs

end

/-- A scalar of a row, with the type it says it has. -/
structure RowScalar where
  type : DataType
  value : Scalar

/-- Whether a supplied scalar type will do for a field. A dictionary field may be
given as any dictionary of its value type, or as the plain value. -/
def typeOk (field supplied : DataType) : Bool :=
  A.equals field supplied ||
    match field, supplied with
    | .dictionary _ v _, .dictionary _ v' _ => A.equals v v'
    | .dictionary _ v _, t => A.equals v t
    | _, _ => false

/-- One top-level field of a row. -/
def encodeRowField (field : Field) (s : RowScalar) : Option Encode :=
  if s.value.isNull then none
  else some fun b =>
    if typeOk A field.type s.type then encodeScalarValue A field.type s.value b
    else .error (.invalidArgument ("Codec::EncodeRow: type mismatch for field '" ++ field.name ++
      "': schema expects " ++ A.toString field.type ++ ", got " ++ A.toString s.type))

/-- `Codec::EncodeRow` into a caller's buffer. -/
def encodeRowInto (schema : Schema) (values : List RowScalar) : Encode := fun b =>
  if values.length = schema.length then
    encodeFields (List.zipWith (encodeRowField A) schema values) schema.length b
  else
    .error (.invalidArgument ("Codec::EncodeRow: values.size() (" ++ toString values.length ++
      ") does not match schema.num_fields() (" ++ toString schema.length ++ ")"))

/-- `Codec::EncodeRow`. -/
def encodeRow (schema : Schema) (values : List RowScalar) : Except Error Bytes :=
  (encodeRowInto A schema values .empty).map WriteBuffer.bytes

/-! ## Decoding -/

abbrev Read := Reader Error

def underrun : Error := .invalidArgument "fletcher: buffer underrun"

def readBytes (n : Nat) : Read Bytes := Reader.take underrun n

def readU32 : Read Nat := do
  let bs ← readBytes 4
  pure (ofLe bs)

def readByte : Read UInt8 := do
  let bs ← readBytes 1
  pure (bs.getD 0 0)

/-- An object read member by member. -/
def readMembers : List Nat → Read Bytes
  | [] => pure []
  | w :: ws => do
    let a ← readBytes w
    let b ← readMembers ws
    pure (a ++ b)

/-- The first `n` bits of a bitfield. -/
def nullFlags (bitfield : Bytes) (n : Nat) : List Bool := (List.range n).map (readBit bitfield)

/-- True if no bit is set. Whole bytes are tested, the padding bits with them. -/
def allValid (bitfield : Bytes) : Bool := bitfield.all (· == 0)

/-- Throw on a failed Arrow status. -/
def okOrThrow (operation : String) : Option String → Except Error Unit
  | none => .ok ()
  | some st => .error (.invalidArgument (operation ++ ": " ++ st))

/-- `detail::DecodeScalarFromReader`. -/
def decodeScalarFromReader (A : Api) : DataType → Read Value
  | .bool => do
    let b ← readByte
    pure (.bool (b != 0))
  | .fixed t => do
    let bs ← readMembers t.members
    pure (.fixed (FixedValue.ofBytes t bs))
  | .var t => do
    let len ← readU32
    let data ← readBytes len
    pure (.binary t data)
  | .dictionary _ t _ => do
    Reader.lift (ensureDictionaryValueSupported A t)
    decodeScalarFromReader A t
  | t => Reader.fail (.invalidArgument ("DecodeScalar: unsupported Arrow type: " ++ A.toString t))

/-- One value of a contiguous fixed-width run, as `AppendRun` lays it into a builder. -/
def runValue (t : DataType) (bytes : Bytes) : Value :=
  match t with
  | .bool => .bool (bytes.getD 0 0 != 0)
  | .fixed ft => .fixed (FixedValue.ofBytes ft bytes)
  | _ => .null

/-- `AppendRun`: `count` values back to back. -/
def runValues (t : DataType) (bytes : Bytes) (count : Nat) : List Value :=
  (List.range count).map fun j => runValue t (ArrayData.slotBytes bytes (fixedWidth t) j)

/-- What the decoder derives from a type: the reader of one value, and the type
and reader `DecodeListElements` uses for an element of it. The two differ for a
dictionary, whose elements are built as values. -/
structure TypeDecoder where
  value : Read Value
  elemType : DataType
  elem : Read Value

/-- A slot read into a builder of the type. -/
def appendSlot (t : DataType) (x : Read Value) (nullText scalarText : String)
    (flag : Bool) : Read Value :=
  if flag then do
    Reader.lift (okOrThrow nullText (A.appendNull t))
    pure .null
  else do
    let v ← x
    Reader.lift (okOrThrow scalarText (A.appendScalar t v))
    pure v

/-- The elements of a list: bitfield, then one bulk run or slot after slot. -/
def decodeListElements (d : TypeDecoder) (count : Nat) : Read (List Value) := do
  let bitfield ← readBytes (bitfieldBytes count)
  Reader.lift (okOrThrow "Codec: list MakeBuilder failed" (A.makeBuilder d.elemType))
  let width := fixedWidth d.elemType
  if 0 < count && 0 < width && allValid bitfield then do
    let left ← Reader.remaining
    Reader.require (.invalidArgument "Codec: list payload exceeds remaining buffer")
      (count ≤ left / width)
    let bytes ← readBytes (count * width)
    pure (runValues d.elemType bytes count)
  else
    Reader.runAll ((nullFlags bitfield count).map
      (appendSlot A d.elemType d.elem "Codec: builder AppendNull failed"
        "Codec: builder AppendScalar failed"))

/-- A run of slots under a struct's or a row's bitfield. -/
def decodeFields (readers : List (Read Value)) : Read (List Value) := do
  let bitfield ← readBytes (bitfieldBytes readers.length)
  Reader.runAll (List.zipWith (Reader.slot .null) readers (nullFlags bitfield readers.length))

/-- The entries of a map: keys, then a bitfield and the values. -/
def decodeMapEntries (kt vt : DataType) (key item : Read Value) (count : Nat) :
    Read Value := do
  Reader.lift (okOrThrow "Codec: map key MakeBuilder failed" (A.makeBuilder kt))
  let keys ← Reader.runAll (List.replicate count
    (appendSlot A kt key "" "Codec: key append failed" false))
  let bitfield ← readBytes (bitfieldBytes count)
  Reader.lift (okOrThrow "Codec: map value MakeBuilder failed" (A.makeBuilder vt))
  let items ← Reader.runAll ((nullFlags bitfield count).map
    (appendSlot A vt item "Codec: value AppendNull failed" "Codec: value append failed"))
  pure (.map keys items)

/-- The union's type code and its active child. -/
def decodeUnion (mode : UnionMode) (codes : List UInt8) (readers : List (Read Value)) :
    Read Value := do
  let code ← readByte
  match childId codes code with
  | some k =>
    match readers[k]? with
    | some x => do
      let v ← x
      pure (.union code v)
    | none => Reader.fail .undefined
  | none =>
    match mode with
    | .sparse => Reader.fail (.invalidArgument "Codec: unknown sparse union type_code")
    | .dense => Reader.fail (.invalidArgument "Codec: unknown dense union type_code")

mutual

/-- `DecodePositionalValue`, with the element decoder derived beside it. -/
def typeDecoder (A : Api) : DataType → TypeDecoder
  | .struct fields =>
    let x := do
      let vs ← decodeFields (decoders A fields)
      pure (.struct vs)
    ⟨x, .struct fields, x⟩
  | .list kind ⟨n, t, b⟩ =>
    let x := do
      let count ← readU32
      let left ← Reader.remaining
      Reader.require (.invalidArgument "Codec: list element count exceeds remaining buffer")
        (bitfieldBytes count ≤ left)
      let vs ← decodeListElements A (typeDecoder A t) count
      pure (.list vs)
    ⟨x, .list kind ⟨n, t, b⟩, x⟩
  | .fixedSizeList ⟨n, t, b⟩ size =>
    let x := do
      let vs ← decodeListElements A (typeDecoder A t) size
      pure (.list vs)
    ⟨x, .fixedSizeList ⟨n, t, b⟩ size, x⟩
  | .map ⟨kn, kt, kb⟩ ⟨vn, vt, vb⟩ sorted =>
    let x := do
      let count ← readU32
      let left ← Reader.remaining
      Reader.require (.invalidArgument "Codec: map entry count exceeds remaining buffer")
        (count ≤ left)
      decodeMapEntries A kt vt (typeDecoder A kt).value (typeDecoder A vt).value count
    ⟨x, .map ⟨kn, kt, kb⟩ ⟨vn, vt, vb⟩ sorted, x⟩
  | .union mode fields codes =>
    let x := decodeUnion mode codes (decoders A fields)
    ⟨x, .union mode fields codes, x⟩
  | .dictionary index t ordered =>
    let d := typeDecoder A t
    ⟨decodeScalarFromReader A (.dictionary index t ordered), d.elemType, d.elem⟩
  | t => ⟨decodeScalarFromReader A t, t, decodeScalarFromReader A t⟩

/-- The value reader of each field's type. -/
def decoders (A : Api) : List Field → List (Read Value)
  | [] => []
  | ⟨_, t, _⟩ :: fs => (typeDecoder A t).value :: decoders A fs

end

/-- `DecodePositionalValue`. -/
def decodePositionalValue (t : DataType) : Read Value := (typeDecoder A t).value

theorem decoders_eq_map (A : Api) : ∀ fields, decoders A fields =
    fields.map (fun f => decodePositionalValue A f.type)
  | [] => rfl
  | ⟨_, t, _⟩ :: fs => by rw [decoders, decoders_eq_map A fs]; rfl

/-- `Codec::DecodeRow`: the whole buffer is one row, with nothing left over. -/
def decodeRow (schema : Schema) (buf : Bytes) : Except Error Row :=
  match decodeFields (decoders A schema) buf with
  | .ok (values, []) => .ok values
  | .ok (_, rest) =>
    .error (.invalidArgument ("Codec::DecodeRow: buffer not fully consumed (" ++
      toString rest.length ++ " trailing byte(s)); does not match schema"))
  | .error e => .error e

theorem decodeRow_eq_ok {A : Api} {schema : Schema} {buf : Bytes} {row : Row} :
    decodeRow A schema buf = .ok row ↔ decodeFields (decoders A schema) buf = .ok (row, []) := by
  unfold decodeRow
  constructor
  · intro h
    split at h
    · next hread =>
      cases h
      exact hread
    · cases h
    · cases h
  · intro h
    rw [h]

end Fletcher.Bridge
