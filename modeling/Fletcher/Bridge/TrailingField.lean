import Fletcher.Bridge.Codec

/-!
# The trailing offset column

A system column is stamped onto an encoded row without decoding it:
`AppendTrailingUint64Field` puts the null bit of one more field into the bitfield,
growing it by a byte when the base fields fill their last one, and the eight bytes
of the value behind everything else.

The old fields are read as before because no reader minds bytes behind its own
(`typeDecoder_extends`): the counts that are checked against what is left in the
buffer are bounded by it.
-/

namespace Fletcher.Core

open Lib List

/-- `AppendTrailingUint64Field`. -/
def appendTrailingUint64Field (row : Bytes) (baseNumFields : Int) (ingestOffset : UInt64) :
    Except Error Bytes :=
  if baseNumFields < 0 then
    .error (.invalidArgument "AppendTrailingUint64Field: base_num_fields must be >= 0")
  else
    let n := baseNumFields.toNat
    let oldBitfield := (n + 7) / 8
    let newBitfield := (n + 1 + 7) / 8
    if row.length < oldBitfield then
      .error (.invalidArgument "AppendTrailingUint64Field: row shorter than its null bitfield")
    else
      let out := row.take oldBitfield ++ List.replicate (newBitfield - oldBitfield) 0
      -- the new field is not null, whatever its bit was as padding
      let out := out.modify (n / 8) (fun b => b &&& ~~~UInt8.ofNat (1 <<< (n % 8)))
      .ok (out ++ row.drop oldBitfield ++ leBytes 8 ingestOffset.toNat)

/-- `ReadTrailingUint64Field`. -/
def readTrailingUint64Field (row : Bytes) : Except Error UInt64 :=
  if row.length < 8 then
    .error (.invalidArgument "ReadTrailingUint64Field: row shorter than a uint64")
  else .ok (UInt64.ofNat (ofLe (row.drop (row.length - 8))))

/-- The bitfield of `n` fields, made one for `n + 1` with the last bit clear. -/
def extendBitfield (bitfield : Bytes) (n : Nat) : Bytes :=
  clearBit (bitfield ++ List.replicate (bitfieldBytes (n + 1) - bitfieldBytes n) 0) n

theorem extendBitfield_length {bitfield : Bytes} {n : Nat} (h : bitfield.length = bitfieldBytes n) :
    (extendBitfield bitfield n).length = bitfieldBytes (n + 1) := by
  rw [extendBitfield, clearBit_length, length_append, length_replicate, h]
  unfold bitfieldBytes
  omega

/-- A byte of zeros behind a bitfield reads as the bits past its end do. -/
theorem readBit_append_zeros (bf : Bytes) (k j : Nat) :
    readBit (bf ++ replicate k 0) j = readBit bf j := by
  unfold readBit
  rw [getD_eq_getElem?_getD, getD_eq_getElem?_getD]
  by_cases hj : j / 8 < bf.length
  · rw [getElem?_append_left hj]
  · rw [getElem?_append_right (Nat.not_lt.mp hj), getElem?_eq_none (Nat.not_lt.mp hj)]
    by_cases hk : j / 8 - bf.length < k
    · rw [getElem?_replicate_of_lt hk]
      rfl
    · rw [getElem?_eq_none (by simp; omega)]

theorem readBit_extendBitfield (bitfield : Bytes) (n j : Nat) :
    readBit (extendBitfield bitfield n) j = (readBit bitfield j && !decide (n = j)) := by
  rw [extendBitfield, readBit_clearBit, readBit_append_zeros]

/-- What is stamped on is the bitfield made larger, the old payload and the value. -/
theorem appendTrailingUint64Field_eq {bitfield payload : Bytes} {n : Nat}
    (h : bitfield.length = bitfieldBytes n) (offset : UInt64) :
    appendTrailingUint64Field (bitfield ++ payload) n offset =
      .ok (extendBitfield bitfield n ++ (payload ++ leBytes 8 offset.toNat)) := by
  have hold : (n + 7) / 8 = bitfield.length := h.symm
  have hlong : ¬ (bitfield ++ payload).length < bitfield.length := by simp
  simp only [appendTrailingUint64Field, if_neg (Int.not_lt.mpr (Int.natCast_nonneg n)),
    Int.toNat_natCast, hold, if_neg hlong, take_left, drop_left, append_assoc]
  rw [extendBitfield, clearBit, ← h]
  rfl

theorem readTrailingUint64Field_append (bs : Bytes) (offset : UInt64) :
    readTrailingUint64Field (bs ++ leBytes 8 offset.toNat) = .ok offset := by
  have hlong : ¬ (bs ++ leBytes 8 offset.toNat).length < 8 := by simp
  have hdrop : (bs ++ leBytes 8 offset.toNat).length - 8 = bs.length := by simp
  rw [readTrailingUint64Field, if_neg hlong, hdrop, drop_left,
    ofLe_leBytes (Nat.lt_of_lt_of_eq offset.toNat_lt (by decide))]
  simp

end Fletcher.Core

namespace Fletcher.Bridge

open Lib Arrow Fletcher.Core Reader

/-! ## Readers do not mind what follows -/

theorem extends_readBytes {n : Nat} : Extends (readBytes n) := extends_take _ n

theorem extends_readU32 : Extends readU32 := extends_readBytes.bind fun _ => extends_pure _

theorem extends_readByte : Extends readByte := extends_readBytes.bind fun _ => extends_pure _

theorem extends_readMembers : ∀ ws : List Nat, Extends (readMembers ws)
  | [] => extends_pure []
  | _ :: ws => extends_readBytes.bind fun _ => (extends_readMembers ws).bind fun _ =>
    extends_pure _

theorem extends_scalar (A : Api) (t : DataType) : Extends (decodeScalarFromReader A t) := by
  induction t with
  | bool => exact extends_readByte.bind fun _ => extends_pure _
  | fixed t => exact (extends_readMembers t.members).bind fun _ => extends_pure _
  | var t =>
    exact extends_readU32.bind fun len => extends_readBytes.bind fun _ => extends_pure _
  | dictionary _ t _ ih => exact (extends_lift _).bind fun _ => ih
  | _ => exact extends_fail _

theorem extends_appendSlot (A : Api) (t : DataType) {x : Read Value} (hx : Extends x)
    (nullText scalarText : String) (flag : Bool) :
    Extends (appendSlot A t x nullText scalarText flag) := by
  cases flag with
  | true => exact (extends_lift _).bind fun _ => extends_pure _
  | false => exact hx.bind fun _ => (extends_lift _).bind fun _ => extends_pure _

theorem extends_appendSlots (A : Api) (t : DataType) {x : Read Value} (hx : Extends x)
    (nullText scalarText : String) (flags : List Bool) :
    Extends (runAll (flags.map (appendSlot A t x nullText scalarText))) := by
  refine extends_runAll fun y hy => ?_
  obtain ⟨flag, -, rfl⟩ := List.mem_map.mp hy
  exact extends_appendSlot A t hx _ _ flag

theorem extends_listElements (A : Api) {d : TypeDecoder} (hd : Extends d.elem) (count : Nat) :
    Extends (decodeListElements A d count) := by
  refine extends_readBytes.bind fun bitfield => (extends_lift _).bind fun _ => ?_
  dsimp only
  split
  · refine Extends.of_check ?_ fun m n hmn h => ?_
    · exact extends_readBytes.bind fun _ => extends_pure _
    · rw [decide_eq_true_eq] at h ⊢
      exact Nat.le_trans h (Nat.div_le_div_right hmn)
  · exact extends_appendSlots A _ hd _ _ _

theorem extends_slots {readers : List (Read Value)} (h : ∀ x ∈ readers, Extends x)
    (flags : List Bool) : Extends (runAll (List.zipWith (slot .null) readers flags)) := by
  refine extends_runAll fun y hy => ?_
  obtain ⟨k, _, rfl⟩ := List.mem_iff_getElem.mp hy
  rw [List.getElem_zipWith]
  exact extends_slot _ _ (h _ (List.getElem_mem _))

theorem extends_fields {readers : List (Read Value)} (h : ∀ x ∈ readers, Extends x) :
    Extends (decodeFields readers) :=
  extends_readBytes.bind fun _ => extends_slots h _

theorem extends_mapEntries (A : Api) (kt vt : DataType) {key item : Read Value}
    (hkey : Extends key) (hitem : Extends item) (count : Nat) :
    Extends (decodeMapEntries A kt vt key item count) := by
  refine (extends_lift _).bind fun _ => Extends.bind (extends_runAll fun y hy => ?_) fun keys => ?_
  · obtain rfl := List.eq_of_mem_replicate hy
    exact extends_appendSlot A kt hkey _ _ false
  · exact extends_readBytes.bind fun bitfield => (extends_lift _).bind fun _ =>
      (extends_appendSlots A vt hitem _ _ _).bind fun items => extends_pure _

theorem extends_union (mode : UnionMode) (codes : List UInt8) {readers : List (Read Value)}
    (h : ∀ x ∈ readers, Extends x) : Extends (decodeUnion mode codes readers) := by
  refine extends_readByte.bind fun code => ?_
  cases childId codes code with
  | none => cases mode <;> exact extends_fail _
  | some k =>
    dsimp only
    cases hk : readers[k]? with
    | none => exact extends_fail _
    | some x => exact (h x (List.mem_of_getElem? hk)).bind fun _ => extends_pure _

theorem decoders_extend {A : Api} {fields : List Field}
    (h : ∀ f ∈ fields, Extends (typeDecoder A f.type).value) :
    ∀ x ∈ decoders A fields, Extends x := by
  intro x hx
  rw [decoders_eq_map] at hx
  obtain ⟨f, hf, rfl⟩ := List.mem_map.mp hx
  exact h f hf

/-- **A value is read the same way in front of more bytes.** -/
theorem typeDecoder_extends (A : Api) (t : DataType) :
    Extends (typeDecoder A t).value ∧ Extends (typeDecoder A t).elem := by
  induction t with
  | bool | fixed t | var t | unsupported name =>
    exact ⟨extends_scalar A _, extends_scalar A _⟩
  | dictionary _ t _ ih =>
    rw [typeDecoder]
    exact ⟨extends_scalar A _, ih.2⟩
  | struct fields ih =>
    have hx : Extends (do
        let vs ← decodeFields (decoders A fields)
        pure (.struct vs) : Read Value) := by
      exact (extends_fields (decoders_extend fun f hf => (ih f hf).1)).bind fun vs =>
        extends_pure _
    rw [typeDecoder]
    exact ⟨hx, hx⟩
  | list _ item ih =>
    obtain ⟨n, t, b⟩ := item
    have hx := extends_readU32.bind fun count => Extends.of_check
      (e := .invalidArgument "Codec: list element count exceeds remaining buffer")
      (c := fun left => decide (bitfieldBytes count ≤ left))
      ((extends_listElements A ih.2 count).bind fun vs => extends_pure (Value.list vs))
      fun m n hmn h => by
        rw [decide_eq_true_eq] at h ⊢
        exact Nat.le_trans h hmn
    rw [typeDecoder]
    exact ⟨hx, hx⟩
  | fixedSizeList item size ih =>
    obtain ⟨n, t, b⟩ := item
    have hx := (extends_listElements A ih.2 size).bind fun vs => extends_pure (Value.list vs)
    rw [typeDecoder]
    exact ⟨hx, hx⟩
  | map key item _ ihk ihv =>
    obtain ⟨_, kt, _⟩ := key
    obtain ⟨_, vt, _⟩ := item
    have hx := extends_readU32.bind fun count => Extends.of_check
      (e := .invalidArgument "Codec: map entry count exceeds remaining buffer")
      (c := fun left => decide (count ≤ left))
      (extends_mapEntries A kt vt ihk.1 ihv.1 count) fun m n hmn h => by
        rw [decide_eq_true_eq] at h ⊢
        exact Nat.le_trans h hmn
    rw [typeDecoder]
    exact ⟨hx, hx⟩
  | union mode fields codes ih =>
    have hx := extends_union mode codes (decoders_extend fun f hf => (ih f hf).1)
    rw [typeDecoder]
    exact ⟨hx, hx⟩

/-- **No accepted buffer goes on in another.** Whatever Arrow does and whatever the schema, a
buffer `DecodeRow` accepts is turned away with anything behind it and with anything of its end
missing. -/
theorem decodeRow_prefixFree {A : Api} {schema : Schema} {buf ext : Bytes} {row row' : Row}
    (h : decodeRow A schema buf = .ok row) (h' : decodeRow A schema (buf ++ ext) = .ok row') :
    ext = [] := by
  have hall := extends_fields (decoders_extend fun f (_ : f ∈ schema) =>
    (typeDecoder_extends A f.type).1)
  have hlong := hall _ _ _ ext (decodeRow_eq_ok.mp h)
  rw [decodeRow_eq_ok.mp h', List.nil_append] at hlong
  cases hlong
  rfl

/-- A boolean under a bitfield, and the same bytes cut short. -/
theorem decodeRow_prefixFree_bool :
    decodeRow .permissive [⟨"b", .bool, true⟩] [0, 7] = .ok [.bool true] ∧
      ¬ ∃ row, decodeRow .permissive [⟨"b", .bool, true⟩] [0] = .ok row := by
  refine ⟨rfl, ?_⟩
  rintro ⟨row, hrow⟩
  have hnone : ([7] : Bytes) = [] := decodeRow_prefixFree hrow
    (show decodeRow .permissive _ ([0] ++ [7]) = .ok [.bool true] from rfl)
  cases hnone

/-! ## Rows with offsets stamped on -/

/-- An offset, and the column of the extended schema it is stamped for. -/
structure Stamp where
  name : String
  nullable : Bool
  offset : UInt64

def Stamp.field (s : Stamp) : Field := ⟨s.name, .fixed .uint64, s.nullable⟩

def Stamp.value (s : Stamp) : Value :=
  .fixed (FixedValue.ofBytes .uint64 (leBytes 8 s.offset.toNat))

/-- The null flags under the larger bitfield: the old ones, and a valid slot. -/
theorem nullFlags_extendBitfield (bitfield : Bytes) (n : Nat) :
    nullFlags (extendBitfield bitfield n) (n + 1) = nullFlags bitfield n ++ [false] := by
  rw [nullFlags, List.range_succ, List.map_append, List.map_singleton, readBit_extendBitfield,
    decide_eq_true rfl, nullFlags]
  congr 1
  · refine List.map_congr_left fun j hj => ?_
    have hne : ¬ n = j := by
      have hlt := List.mem_range.mp hj
      omega
    rw [readBit_extendBitfield, decide_eq_false hne, Bool.not_false, Bool.and_true]
  · simp

theorem reads_stamp (A : Api) (s : Stamp) (rest : Bytes) :
    (typeDecoder A s.field.type).value (leBytes 8 s.offset.toNat ++ rest) =
      .ok (s.value, rest) := by
  have hmem : readBytes 8 (leBytes 8 s.offset.toNat ++ rest) =
      .ok (leBytes 8 s.offset.toNat, rest) := reads_take_of_length _ (leBytes_length 8 _) rest
  have hread : readMembers FixedType.uint64.members (leBytes 8 s.offset.toNat ++ rest) =
      .ok (leBytes 8 s.offset.toNat, rest) := by
    show (readBytes 8 >>= fun a => readMembers [] >>= fun b => pure (a ++ b)) _ = _
    rw [bind_of_ok hmem]
    show Except.ok (leBytes 8 s.offset.toNat ++ [], rest) = _
    rw [List.append_nil]
  show (readMembers FixedType.uint64.members >>= fun bs =>
    pure (Value.fixed (FixedValue.ofBytes .uint64 bs))) _ = _
  rw [bind_of_ok hread]
  rfl

/-- One stamp: the old values, then the offset. -/
theorem decodeRow_stamp {A : Api} {schema : Schema} {row : Bytes} {values : Row}
    (h : decodeRow A schema row = .ok values) (s : Stamp) :
    ∃ out, appendTrailingUint64Field row schema.length s.offset = .ok out ∧
      decodeRow A (schema ++ [s.field]) out = .ok (values ++ [s.value]) ∧
      readTrailingUint64Field out = .ok s.offset := by
  obtain ⟨bitfield, _, hbit, hsl⟩ := bind_eq_ok.mp (decodeRow_eq_ok.mp h)
  obtain ⟨hlen, rfl⟩ := take_eq_ok.mp hbit
  have hcnt : (decoders A schema).length = schema.length := by simp [decoders_eq_map]
  rw [hcnt] at hlen hsl
  refine ⟨_, appendTrailingUint64Field_eq hlen s.offset, ?_, ?_⟩
  · have hdec : decoders A (schema ++ [s.field]) =
        decoders A schema ++ [decodePositionalValue A s.field.type] := by
      simp [decoders_eq_map]
    rw [decodeRow_eq_ok, hdec]
    refine bind_eq_ok.mpr ⟨extendBitfield bitfield schema.length, _, take_eq_ok.mpr ⟨?_, rfl⟩, ?_⟩
    · rw [List.length_append, hcnt]
      exact extendBitfield_length hlen
    · rw [List.length_append, hcnt]
      show runAll (List.zipWith (slot Value.null) _ (nullFlags _ (schema.length + 1))) _ = _
      rw [nullFlags_extendBitfield, List.zipWith_append (by simp [hcnt, nullFlags])]
      -- The old slots leave the eight bytes behind them alone.
      have hold := extends_slots (decoders_extend fun f (_ : f ∈ schema) =>
        (typeDecoder_extends A f.type).1) (nullFlags bitfield schema.length)
      have hstamp := reads_stamp A s []
      rw [List.append_nil] at hstamp
      exact runAll_concat_eq_ok (hold _ _ _ _ hsl) hstamp
  · rw [← List.append_assoc]
    exact readTrailingUint64Field_append _ _

/-- Stamp after stamp, each onto the row the last one left. -/
def stampAll : Bytes → Nat → List Stamp → Except Error Bytes
  | row, _, [] => .ok row
  | row, n, s :: stamps => do
    let row ← appendTrailingUint64Field row n s.offset
    stampAll row (n + 1) stamps

/-- **Trailing offsets.** Whatever bytes the codec reads as a row of the schema, stray padding
bits or not: with any number of offsets stamped on one after the other, it reads the old values
and the offsets under the extended schema, and the last offset is read back without one. -/
theorem decodeRow_stampAll {A : Api} {schema : Schema} {row : Bytes} {values : Row}
    (h : decodeRow A schema row = .ok values) (stamps : List Stamp) :
    ∃ out, stampAll row schema.length stamps = .ok out ∧
      decodeRow A (schema ++ stamps.map Stamp.field) out = .ok (values ++ stamps.map Stamp.value) ∧
      ∀ s ∈ stamps.getLast?, readTrailingUint64Field out = .ok s.offset := by
  induction stamps generalizing schema row values with
  | nil => exact ⟨row, rfl, by simpa using h, fun s hs => by cases hs⟩
  | cons s stamps ih =>
    obtain ⟨mid, hmid, hdecode, hread⟩ := decodeRow_stamp h s
    obtain ⟨out, hout, hall, hlast⟩ := ih hdecode
    refine ⟨out, ?_, ?_, ?_⟩
    · rw [stampAll, hmid, ok_bind]
      simpa using hout
    · simpa using hall
    · intro t ht
      cases stamps with
      | nil =>
        obtain rfl : s = t := by simpa using ht
        obtain rfl : mid = out := by simpa [stampAll] using hout
        exact hread
      | cons _ stamps => exact hlast t (by simpa using ht)

/-- The number five in a row of one column, with every padding bit of its bitfield set. -/
def strayRow : Bytes := [0xFE, 5, 0, 0, 0]

/-- Two offsets stamped onto it. The bits that were padding are clear where the columns are. -/
theorem strayRow_stamped : decodeRow .permissive [⟨"a", .fixed .int32, true⟩] strayRow =
      .ok [.fixed ⟨.int32, [5, 0, 0, 0], rfl⟩] ∧
    stampAll strayRow 1 [⟨"o", false, 7⟩, ⟨"p", true, 8⟩] =
      .ok [0xF8, 5, 0, 0, 0, 7, 0, 0, 0, 0, 0, 0, 0, 8, 0, 0, 0, 0, 0, 0, 0] ∧
    ∃ out, stampAll strayRow 1 [⟨"o", false, 7⟩, ⟨"p", true, 8⟩] = .ok out ∧
      readTrailingUint64Field out = .ok 8 := by
  have hbase : decodeRow .permissive [⟨"a", .fixed .int32, true⟩] strayRow =
      .ok [.fixed ⟨.int32, [5, 0, 0, 0], rfl⟩] := rfl
  obtain ⟨out, hout, -, hlast⟩ := decodeRow_stampAll hbase [⟨"o", false, 7⟩, ⟨"p", true, 8⟩]
  exact ⟨hbase, rfl, out, hout, hlast _ rfl⟩

end Fletcher.Bridge
