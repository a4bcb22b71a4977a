import Fletcher.Bridge.CodecEncode
import Fletcher.Bridge.MapCounts

/-!
# The decoder understands the encoder

Both ends of the codec are held against the wire format, and so against each other: the
encoder writes `wireRow` of a row's values (`encodeRow_eq_wireRow`), and the decoder reads
the grammar, which reads `wireRow` back when the check on map counts lets it. With keys that
take a byte each it always does. The other way round, a buffer the decoder accepted is
`wireRow` of what it read, up to padding and the bytes of true booleans.
-/

namespace Fletcher.Bridge

open Lib Arrow Fletcher.Core Reader List

variable {schema : Schema} {row : Row}

/-- **The decoder reads back every row the wire can carry.** -/
theorem decodeRow_wireRow {A : Api} (hA : A.Lawful) (ht : ∀ f ∈ schema, f.type.supported = true)
    (hkeys : ∀ f ∈ schema, f.type.keysTakeBytes = true)
    (hv : Forall₂ (fun f v => SlotOk f.type v) schema row) :
    decodeRow A schema (wireRow schema row) = .ok row := by
  have hcar : ∀ f ∈ schema, f.type.carried = true :=
    fun f hf => DataType.carried_of_supported (ht f hf)
  rw [decodeRow_same hA ht, parseRow_wireRow hcar hv]
  exact rowMapsFit_of_keysTakeBytes hcar hkeys hv

/-- The logical values of a row of well-formed scalars belong to the schema's types. -/
theorem rowOf_slots_of_valid {values : List RowScalar} (ht : ∀ f ∈ schema, f.type.carried = true)
    (hv : Forall₂ (fun f s => s.value.Valid f.type) schema values) :
    Forall₂ (fun f v => Slot (HasType f.type) v) schema (rowOf schema values) :=
  forall₂_zipWith hv fun f hf _ hs => Scalar.valueOf_slot (ht f hf) hs

theorem rowOf_slots {values : List RowScalar}
    (ht : ∀ f ∈ schema, f.type.supported = true) (hv : RowValid schema values) :
    Forall₂ (fun f v => Slot (HasType f.type) v) schema (rowOf schema values) :=
  rowOf_slots_of_valid (fun f hf => DataType.carried_of_supported (ht f hf))
    (hv.imp fun _ _ hs => hs.2)

/-- **Rows survive the codec.** Over any schema of supported types whose map keys
take at least a byte each, every well-typed row that fits the wire encodes, and
decoding those bytes consumes all of them and gives the row's values back, null
for null at every level. -/
theorem decodeRow_encodeRow {A : Api} (hA : A.Lawful) {schema : Schema} {values : List RowScalar}
    (ht : ∀ f ∈ schema, f.type.supported = true) (hkeys : ∀ f ∈ schema, f.type.keysTakeBytes = true)
    (hv : RowValid schema values) (henc : ∀ v ∈ rowOf schema values, v.Encodable) :
    ∃ bytes, encodeRow A schema values = .ok bytes ∧
      decodeFields (decoders A schema) bytes = .ok (rowOf schema values, []) ∧
      decodeRow A schema bytes = .ok (rowOf schema values) := by
  have hread := decodeRow_wireRow hA ht hkeys (forall₂_and_right (rowOf_slots ht hv) henc)
  exact ⟨_, encodeRow_eq_wireRow hA ht hv henc, decodeRow_eq_ok.mp hread, hread⟩

/-- A list of 16-bit integers, a map from strings to booleans, and a string. -/
def mixedSchema : Schema :=
  [⟨"xs", .list .list ⟨"item", .fixed .int16, true⟩, true⟩,
    ⟨"m", .map ⟨"key", .var .string, false⟩ ⟨"value", .bool, true⟩ false, true⟩,
    ⟨"s", .var .string, true⟩]

/-- The list is a slice that holds a null, the map has one entry, the string is null. -/
def mixedRow : List RowScalar :=
  [⟨.list .list ⟨"item", .fixed .int16, true⟩,
      .list (.fixed ⟨2, 1, some [true, true, false]⟩ [1, 0, 2, 0, 3, 0])⟩,
    ⟨.map ⟨"key", .var .string, false⟩ ⟨"value", .bool, true⟩ false,
      .map (.struct ⟨1, 0, none⟩ [.binary ⟨1, 0, none⟩ [0, 1] [107], .bool ⟨1, 0, none⟩ [true]])⟩,
    ⟨.var .string, .null⟩]

theorem mixedRow_valid : RowValid mixedSchema mixedRow := by
  refine .cons ⟨fun _ => rfl, ?_⟩ (.cons ⟨fun _ => rfl, ?_⟩ (.cons ⟨fun _ => rfl, trivial⟩ .nil))
  · show (1 + 2) * 2 ≤ 6
    decide
  · refine .cons ⟨?_, by decide⟩ (.cons ⟨Nat.le_refl 1, by decide⟩ .nil)
    intro i hi
    obtain rfl : i = 0 := Nat.lt_one_iff.mp hi
    decide

theorem decodeRow_encodeRow_mixed :
    ∃ bytes, encodeRow .permissive mixedSchema mixedRow = .ok bytes ∧
      decodeRow .permissive mixedSchema bytes = .ok [.list [.fixed ⟨.int16, [2, 0], rfl⟩, .null],
          .map [.binary .string [107]] [.bool true], .null] := by
  have henc : ∀ v ∈ rowOf mixedSchema mixedRow, v.Encodable :=
    Value.allEncodable_iff.mp ⟨⟨by decide, trivial, trivial, trivial⟩,
      ⟨by decide, by decide, ⟨show 1 < 2 ^ 32 by decide, trivial⟩, ⟨trivial, trivial⟩⟩, trivial,
        trivial⟩
  obtain ⟨bytes, hbytes, -, hdec⟩ := decodeRow_encodeRow Api.permissive_lawful
    (by decide : ∀ f ∈ mixedSchema, f.type.supported = true) (by decide) mixedRow_valid henc
  exact ⟨bytes, hbytes, hdec⟩

/-! ## Decoded rows encoded again -/

theorem parseRow_recoded {buf : Bytes} (h : parseRow schema buf = some row) :
    Recoded (rowPlaces schema row) buf (wireRow schema row) :=
  (parseRow_denotes h).recoded fun f _ => denotes_recodes f.type

/-- **The encoder understands the decoder.** Whatever buffer `DecodeRow` accepts, `EncodeRow` of
scalars that hold the row it returned succeeds, and gives that buffer back but for the padding
of its bitfields, which is cleared, and its true booleans, which become 1. -/
theorem encodeRow_decodeRow {A : Api} (hA : A.Lawful) {schema : Schema} {buf : Bytes} {row : Row}
    {values : List RowScalar} (ht : ∀ f ∈ schema, f.type.supported = true)
    (hsizes : ∀ f ∈ schema, sizesFit f.type = true) (h : decodeRow A schema buf = .ok row)
    (hv : RowValid schema values) (hrow : rowOf schema values = row) :
    ∃ out, encodeRow A schema values = .ok out ∧ out.length = buf.length ∧
      Recoded (rowPlaces schema row) buf out := by
  rw [decodeRow_same hA ht] at h
  have hslots := slotOk_of_parseRow (fun f hf => fixedSizesFit_of_sizesFit (hsizes f hf)) h
  have henc : ∀ v ∈ rowOf schema values, v.Encodable := by
    intro v hmem
    rw [hrow] at hmem
    obtain ⟨k, hk⟩ := mem_iff_getElem?.mp hmem
    obtain ⟨f, -, hok⟩ := forall₂_getElem?_right hslots hk
    exact hok.2
  have hrecoded := parseRow_recoded h
  refine ⟨_, encodeRow_eq_wireRow hA ht hv henc, ?_, ?_⟩
  · rw [hrow]
    exact hrecoded.length_eq.symm
  · rw [hrow]
    exact hrecoded

/-- One boolean, its bitfield padded with ones and its byte a seven. -/
theorem encodeRow_decodeRow_padded :
    ∃ out, encodeRow .permissive [⟨"b", .bool, true⟩] [⟨.bool, .bool true⟩] = .ok out ∧
      out.length = 2 ∧ Recoded (rowPlaces [⟨"b", .bool, true⟩] [.bool true]) [0xFE, 7] out :=
  encodeRow_decodeRow Api.permissive_lawful (by decide) (by decide)
    (show decodeRow .permissive [⟨"b", .bool, true⟩] [0xFE, 7] = .ok [.bool true] from rfl)
    (.cons ⟨fun _ => rfl, trivial⟩ .nil) rfl

end Fletcher.Bridge
