import Fletcher.Ts.Values
import Fletcher.Bridge.Layout

/-!
# The TypeScript encoder

`encodePositional` and its writers. `WriteBuf` is the bytes written so far: how the array
behind it grows is of no consequence.

The null bitfield of a run is reserved first and its bits are set while the slots are written.
`setBit` computes the byte with a 32-bit shift, so a null in a slot of index `2 ^ 31` or above
marks a byte in front of the run instead of its own. `writeValue_puts` is exact about it: the
writer puts the wire format's bytes unless there is such a null, and other bytes if there is.
-/

namespace Fletcher.Ts

open Lib Arrow Bridge List

variable {d : Bytes} {i w : Nat} {t : FixedType} {js : Js}

variable {bs : Bytes} {R : Runtime} {fd : FieldDescriptor} {props : List (String × Js)}

inductive JsError where
  /-- What a `DataView` throws outside its bounds. -/
  | rangeError
  | error (message : String)
  /-- A value of another type than the descriptor asks for. What JavaScript's coercions make
  of it is not modelled. -/
  | illTyped
  deriving DecidableEq, Repr

/-! ## The writers -/

abbrev Write := Bytes → Except JsError Bytes

def setBit (bytes : Bytes) (byteOffset bitIndex : Nat) : Bytes :=
  if 0 ≤ bitByte byteOffset bitIndex then
    bytes.modify (bitByte byteOffset bitIndex).toNat fun b =>
      b ||| UInt8.ofNat (1 <<< (bitIndex % 8))
  else bytes

def writeBytes (data : Bytes) : Write := fun b => .ok (b ++ data)

/-- `writeI8` to `writeU32`, by their width. -/
def writeNumber (w : Nat) : Js → Write
  | .number n => writeBytes (intBytes w n)
  | _ => fun _ => .error .illTyped

/-- `writeI64` and `writeU64`. -/
def writeBigInt : Js → Write
  | .bigint n => writeBytes (intBytes 8 n)
  | _ => fun _ => .error .illTyped

/-- `writeF32` and `writeF64`. -/
def writeFloat (w : Nat) : Js → Write
  | .float bits => if bits.length = w then writeBytes bits else fun _ => .error .illTyped
  | _ => fun _ => .error .illTyped

/-- A length and the bytes. -/
def writeSized (data : Bytes) : Write := writeBytes (leBytes 4 data.length ++ data)

def writeScalar (wireType : WireTypeId) (value : Js) : Write :=
  match wireType with
  | .bool =>
    match value with
    | .bool b => writeBytes [if b then 1 else 0]
    | _ => fun _ => .error .illTyped
  | .int8 => writeNumber 1 value
  | .int16 => writeNumber 2 value
  | .int32 | .date32 | .time32 | .intervalMonths => writeNumber 4 value
  | .int64 | .date64 | .time64 | .timestampNano | .durationNano => writeBigInt value
  | .uint8 => writeNumber 1 value
  | .uint16 | .halfFloat => writeNumber 2 value
  | .uint32 => writeNumber 4 value
  | .uint64 => writeBigInt value
  | .float32 => writeFloat 4 value
  | .float64 => writeFloat 8 value
  | .string | .largeString | .stringView =>
    match value with
    | .string s => writeSized s.utf8
    | _ => fun _ => .error .illTyped
  | .binary | .largeBinary | .binaryView =>
    match value with
    | .bytes data => writeSized data
    | _ => fun _ => .error .illTyped
  | .intervalDayTime =>
    match value with
    | .object props => fun b => do
      let b ← writeNumber 4 (property props "days") b
      writeNumber 4 (property props "milliseconds") b
    | _ => fun _ => .error .illTyped
  | .intervalMonthDayNano =>
    match value with
    | .object props => fun b => do
      let b ← writeNumber 4 (property props "months") b
      let b ← writeNumber 4 (property props "days") b
      writeBigInt (property props "nanoseconds") b
    | _ => fun _ => .error .illTyped
  | .decimal128 | .decimal256 =>
    match value with
    | .bytes data => writeBytes data
    | _ => fun _ => .error .illTyped
  | wireType => fun _ => .error (.error ("writeScalar: unsupported wire type 0x" ++ wireType.hex))

/-- The loop over the slots of a run. -/
def writeSlots (bfStart : Nat) : List (Js × (Js → Write)) → Nat → Write
  | [], _, b => .ok b
  | (v, write) :: slots, i, b => do
    let b ← if v.isNullish then .ok (setBit b bfStart i) else write v b
    writeSlots bfStart slots (i + 1) b

/-- Reserve the bitfield of a run and write the slots behind it. -/
def writeRun (slots : List (Js × (Js → Write))) : Write := fun b =>
  writeSlots b.length slots 0 (b ++ List.replicate (bitfieldBytes slots.length) 0)

def writeStruct (fields : List (String × (Js → Write))) : Js → Write
  | .object props => writeRun (fields.map fun f => (property props f.1, f.2))
  | _ => fun _ => .error .illTyped

def writeList (element : Option (Js → Write)) (value : Js) : Write :=
  match element with
  | none => fun _ => .error (.error "List field missing element descriptor")
  | some write =>
    match value with
    | .array items => fun b => do
      let b ← writeBytes (leBytes 4 items.length) b
      writeRun (items.map (·, write)) b
    | _ => fun _ => .error .illTyped

def writeFixedSizeList (element : Option (Js → Write)) (fixedSize : Option Nat) (value : Js) :
    Write :=
  match element with
  | none => fun _ => .error (.error "FixedSizeList field missing element descriptor")
  | some write =>
    match value with
    | .array items =>
      -- the array is indexed up to the declared size, whatever its own length
      writeRun ((List.range (fixedSize.getD items.length)).map fun i =>
        (items.getD i .undefined, write))
    | _ => fun _ => .error .illTyped

def writeKeys (write : Js → Write) : List Js → Write
  | [], b => .ok b
  | key :: keys, b => do
    let b ← write key b
    writeKeys write keys b

def writeMap (key value : Option (Js → Write)) (map : Js) : Write :=
  match key, value with
  | some writeKey, some writeVal =>
    match map with
    | .map entries => fun b => do
      let b ← writeBytes (leBytes 4 entries.length) b
      let b ← writeKeys writeKey (entries.map Prod.fst) b
      writeRun (entries.map fun e => (e.2, writeVal)) b
    | _ => fun _ => .error .illTyped
  | _, _ => fun _ => .error (.error "Map field missing key/value descriptors")

mutual

def writeValue : FieldDescriptor → Js → Write
  | ⟨_, wireType, _, element, mapKey, mapValue, fields, fixedSize⟩, value =>
    match wireType with
    | .struct => writeStruct (writeFields fields) value
    | .list | .largeList => writeList (writeOption element) value
    | .fixedSizeList => writeFixedSizeList (writeOption element) fixedSize value
    | .map => writeMap (writeOption mapKey) (writeOption mapValue) value
    | wireType => writeScalar wireType value

def writeFields : List FieldDescriptor → List (String × (Js → Write))
  | [] => []
  | fd :: fds => (fd.name, writeValue fd) :: writeFields fds

def writeOption : Option FieldDescriptor → Option (Js → Write)
  | none => none
  | some fd => some (writeValue fd)

end

def encodePositional (schema : SchemaDescriptor) (values : List (String × Js)) :
    Except JsError Bytes :=
  writeRun ((writeFields schema).map fun f => (property values f.1, f.2)) []

/-! ## Exact writers -/

/-- The writer puts `d` at the end of the buffer and touches nothing else, unless `bad` holds of
where it starts; then something else than `d` ends up there. -/
def Puts (write : Write) (d : Bytes) (bad : Nat → Prop) : Prop :=
  ∀ b, ∃ b' d', write b = .ok (b' ++ d') ∧ b'.length = b.length ∧ d'.length = d.length ∧
    (¬ bad b.length → b' = b ∧ d' = d) ∧ (bad b.length → d' ≠ d)

theorem puts_writeBytes (d : Bytes) : Puts (writeBytes d) d fun _ => False :=
  fun b => ⟨b, d, rfl, rfl, rfl, fun _ => ⟨rfl, rfl⟩, False.elim⟩

theorem exists_append_of_length {α : Type} {l : List α} {m n : Nat} (h : l.length = m + n) :
    ∃ x y, l = x ++ y ∧ x.length = m ∧ y.length = n :=
  ⟨l.take m, l.drop m, (take_append_drop m l).symm, by simp; omega, by simp; omega⟩

theorem Puts.seq {w w' : Write} {d' : Bytes} {bad bad' : Nat → Prop} (h : Puts w d bad)
    (h' : Puts w' d' bad') :
    Puts (fun b => w b >>= w') (d ++ d') fun pos => bad pos ∨ bad' (pos + d.length) := by
  intro b
  obtain ⟨b₁, d₁, hw, hb₁, hd₁, hgood, hbad⟩ := h b
  obtain ⟨_, d₂, hw', hb₂, hd₂, hgood', hbad'⟩ := h' (b₁ ++ d₁)
  rw [length_append, hb₁, hd₁] at hb₂ hgood' hbad'
  obtain ⟨x, y, rfl, hx, hy⟩ := exists_append_of_length hb₂
  refine ⟨x, y ++ d₂, ?_, hx, by rw [length_append, length_append, hy, hd₂], ?_, ?_⟩
  · simp only [hw, ok_bind, hw', append_assoc]
  · intro hn
    obtain ⟨hn, hn'⟩ := not_or.mp hn
    obtain ⟨rfl, rfl⟩ := hgood hn
    obtain ⟨hxy, rfl⟩ := hgood' hn'
    obtain ⟨rfl, rfl⟩ := append_inj hxy hx
    exact ⟨rfl, rfl⟩
  · intro hor heq
    obtain ⟨rfl, rfl⟩ := append_inj heq hy
    have hn' : ¬ bad' (b.length + y.length) := fun h => hbad' h rfl
    rcases hor with hb | hb
    · obtain ⟨hxy, -⟩ := hgood' hn'
      exact hbad hb (append_inj hxy (by rw [hx, hb₁])).2.symm
    · exact hn' hb

theorem Puts.congr {w : Write} {bad bad' : Nat → Prop} (h : Puts w d bad)
    (hiff : ∀ pos, bad pos ↔ bad' pos) : Puts w d bad' := by
  have heq : bad = bad' := funext fun pos => propext (hiff pos)
  exact heq ▸ h

/-- A null whose bit goes astray. -/
def HighNull (r : Run) : Prop := ∃ i, 2 ^ 31 ≤ i ∧ r.2[i]? = some true

/-- Some run of the list has one. -/
def AnyHighNull (rs : List Run) : Prop := ∃ r ∈ rs, HighNull r

theorem anyHighNull_append (rs rs' : List Run) :
    AnyHighNull (rs ++ rs') ↔ AnyHighNull rs ∨ AnyHighNull rs' := by
  simp only [AnyHighNull, mem_append, or_and_right, exists_or]

theorem anyHighNull_cons (r : Run) (rs : List Run) :
    AnyHighNull (r :: rs) ↔ HighNull r ∨ AnyHighNull rs := by
  simp only [AnyHighNull, mem_cons, or_and_right, exists_or, exists_eq_left]

theorem not_anyHighNull_nil : ¬ AnyHighNull [] := by
  rintro ⟨r, hr, -⟩
  cases hr

/-! ## Runs of slots -/

theorem setBit_low {pre bf post : Bytes} (hi : i < 2 ^ 31) (hbf : i / 8 < bf.length) :
    setBit (pre ++ (bf ++ post)) pre.length i = pre ++ (orBit bf i ++ post) := by
  rw [setBit, bitByte_low hi, if_pos (Int.natCast_nonneg _), Int.toNat_natCast, modify_append_right,
    modify_append_left _ _ _ _ hbf]
  rfl

theorem setBit_high (pre rest : Bytes) (hi : 2 ^ 31 ≤ i) (hlt : i < 2 ^ 32) :
    ∃ pre', pre'.length = pre.length ∧ setBit (pre ++ rest) pre.length i = pre' ++ rest := by
  have hhigh := bitByte_high pre.length hi hlt
  unfold setBit
  split
  · exact ⟨_, length_modify .., modify_append_left _ pre rest _ (by omega)⟩
  · exact ⟨pre, rfl, rfl⟩

/-- What the bitfield of a run gets to hold: the nulls of low index. -/
def lowFlags (flags : List Bool) (i : Nat) : List Bool :=
  flags.mapIdx fun k flag => flag && decide (i + k < 2 ^ 31)

theorem lowFlags_cons (flag : Bool) (flags : List Bool) :
    lowFlags (flag :: flags) i = (flag && decide (i < 2 ^ 31)) :: lowFlags flags (i + 1) := by
  simp only [lowFlags, mapIdx_cons, Nat.add_zero, Nat.add_assoc, Nat.add_comm 1]

theorem lowFlags_eq_self {flags : List Bool}
    (h : ∀ k, flags[k]? = some true → i + k < 2 ^ 31) : lowFlags flags i = flags := by
  apply ext_getElem?
  intro k
  rw [lowFlags, getElem?_mapIdx]
  cases hk : flags[k]? with
  | none => rfl
  | some flag =>
    cases flag with
    | false => rfl
    | true => rw [Option.map_some, decide_eq_true (h k hk)]; rfl

/-- A slot that is written as the item says. -/
def SlotPuts (slot : Js × (Js → Write)) (item : Item) : Prop :=
  match item with
  | none => slot.1.isNullish = true
  | some (payload, inner) => slot.1.isNullish = false ∧
    Puts (slot.2 slot.1) payload fun pos => AnyHighNull (inner pos)

/-- The payloads of a run. -/
def payloads (items : List Item) : Bytes := items.flatMap fun item => item.out.getD []

/-- The loop invariant. If a run inside has lost a null, the payloads show it, whatever else has
been overwritten on the way. If none has, the payloads are right, everything between the
bitfield and them is as it was, and only nulls of high index are missing from the bitfield. -/
theorem writeSlots_puts {slots : List (Js × (Js → Write))} {items : List Item} (i : Nat)
    (pre bf post : Bytes) (hsl : Forall₂ SlotPuts slots items) (hlt : i + items.length < 2 ^ 32)
    (hle : i + items.length ≤ 8 * bf.length) :
    ∃ pre' bf' post' pay, writeSlots pre.length slots i (pre ++ (bf ++ post)) =
        .ok (pre' ++ (bf' ++ (post' ++ pay))) ∧
      pre'.length = pre.length ∧ bf'.length = bf.length ∧ post'.length = post.length ∧
      pay.length = (payloads items).length ∧
      (AnyHighNull (itemRuns items (pre.length + bf.length + post.length)) → pay ≠ payloads items) ∧
      (¬ AnyHighNull (itemRuns items (pre.length + bf.length + post.length)) →
        pay = payloads items ∧ post' = post ∧
        bf' = orBits bf (lowFlags (items.map Option.isNone) i) i ∧
        ((∀ k, (items.map Option.isNone)[k]? = some true → i + k < 2 ^ 31) → pre' = pre)) := by
  induction hsl generalizing i pre bf post with
  | nil =>
    refine ⟨pre, bf, post, [], by simp [writeSlots], rfl, rfl, rfl, rfl, ?_, ?_⟩
    · exact fun h => absurd h not_anyHighNull_nil
    · exact fun _ => ⟨rfl, rfl, rfl, fun _ => rfl⟩
  | @cons slot item slots items hslot _ ih =>
  obtain ⟨v, write⟩ := slot
  rw [length_cons] at hlt hle
  cases item with
  | none =>
    have hnul : v.isNullish = true := hslot
    -- where the bit goes, and that the bitfield then holds what its low flags say
    obtain ⟨pre₁, hpre₁, hset, hlow⟩ : ∃ pre₁, pre₁.length = pre.length ∧
        setBit (pre ++ (bf ++ post)) pre.length i =
          pre₁ ++ ((if i < 2 ^ 31 then orBit bf i else bf) ++ post) ∧
        (i < 2 ^ 31 → pre₁ = pre) := by
      by_cases hi : i < 2 ^ 31
      · exact ⟨pre, rfl, by rw [if_pos hi, setBit_low hi (by omega)], fun _ => rfl⟩
      · obtain ⟨pre₁, hpre₁, hset⟩ := setBit_high pre (bf ++ post) (Nat.le_of_not_lt hi) (by omega)
        exact ⟨pre₁, hpre₁, by rw [if_neg hi, hset], fun h => absurd h hi⟩
    have hbf : (if i < 2 ^ 31 then orBit bf i else bf).length = bf.length := by split <;> simp
    obtain ⟨pre', bf', post', pay, hrun, hpre', hbf', hpost', hpay, hbad, hgood⟩ :=
      ih (i + 1) pre₁ (if i < 2 ^ 31 then orBit bf i else bf) post (by omega) (by omega)
    rw [hpre₁, hbf] at *
    refine ⟨pre', bf', post', pay, ?_, hpre', hbf', hpost', hpay, hbad, fun hn => ?_⟩
    · rw [writeSlots, if_pos hnul, hset]
      exact hrun
    · obtain ⟨hp, hpo, hb, hpr⟩ := hgood hn
      refine ⟨hp, hpo, ?_, fun hk => ?_⟩
      · rw [hb, map_cons, lowFlags_cons, orBits]
        simp
      · have hfst : i < 2 ^ 31 := hk 0 rfl
        rw [hpr fun k hkk => by have := hk (k + 1) hkk; omega, hlow hfst]
  | some written =>
    obtain ⟨payload, inner⟩ := written
    obtain ⟨hnul, hputs⟩ := hslot
    obtain ⟨b, d, hwrite, hb, hd, hgood₁, hbad₁⟩ := hputs (pre ++ (bf ++ post))
    dsimp only at hnul hwrite
    have hlen : (pre ++ (bf ++ post)).length = pre.length + bf.length + post.length := by
      simp only [length_append]
      omega
    rw [hlen] at hb hgood₁ hbad₁
    -- the slot may have written over what stands in front of it, so the rest starts from there
    obtain ⟨_, post₁, rfl, hb', hpost₁⟩ := exists_append_of_length hb
    obtain ⟨pre₁, bf₁, rfl, hpre₁, hbf₁⟩ := exists_append_of_length hb'
    obtain ⟨pre', bf', _, pay, hrun, hpre', hbf', hmid, hpay, hbad, hgood⟩ :=
      ih (i + 1) pre₁ bf₁ (post₁ ++ d) (by omega) (by omega)
    rw [length_append, hpost₁, hd] at hmid
    obtain ⟨post', d', rfl, hpost', hd'⟩ := exists_append_of_length hmid
    have hpos : pre₁.length + bf₁.length + (post₁ ++ d).length =
        pre.length + bf.length + post.length + payload.length := by
      rw [length_append, hpre₁, hbf₁, hpost₁, hd]
      omega
    rw [hpos] at hbad hgood
    have hits : payloads (some (payload, inner) :: items) = payload ++ payloads items := rfl
    have hruns : ∀ pos, itemRuns (some (payload, inner) :: items) pos =
        inner pos ++ itemRuns items (pos + payload.length) := fun _ => rfl
    rw [hits, hruns, anyHighNull_append]
    refine ⟨pre', bf', post', d' ++ pay, ?_, by omega, by omega, hpost', ?_, ?_, ?_⟩
    · have hshp : pre₁ ++ bf₁ ++ post₁ ++ d = pre₁ ++ (bf₁ ++ (post₁ ++ d)) := by simp
      rw [writeSlots, hnul, if_neg (by simp), hwrite, ok_bind, ← hpre₁, hshp]
      rw [append_assoc post'] at hrun
      exact hrun
    · rw [length_append, length_append, hpay, hd']
    · intro hor heq
      obtain ⟨rfl, hpayeq⟩ := append_inj heq hd'
      have hn : ¬ AnyHighNull (itemRuns items
          (pre.length + bf.length + post.length + d'.length)) := fun h => hbad h hpayeq
      rcases hor with h | h
      · obtain ⟨-, hpost, -⟩ := hgood hn
        exact hbad₁ h (append_inj hpost (by rw [hpost', hpost₁])).2.symm
      · exact hn h
    · intro hn
      obtain ⟨hn₁, hn₂⟩ := not_or.mp hn
      obtain ⟨hbeq, rfl⟩ := hgood₁ hn₁
      obtain ⟨hpayeq, hpost, hbits, hpreeq⟩ := hgood hn₂
      rw [append_assoc] at hbeq
      obtain ⟨rfl, hrest⟩ := append_inj hbeq hpre₁
      obtain ⟨rfl, rfl⟩ := append_inj hrest hbf₁
      obtain ⟨rfl, rfl⟩ := append_inj hpost hpost'
      refine ⟨by rw [hpayeq], rfl, ?_, fun hk => hpreeq fun k hkk => ?_⟩
      · rw [hbits, map_cons, lowFlags_cons, orBits]
        rfl
      · have := hk (k + 1) hkk
        omega

/-- **A run of slots is written as the wire has it, unless a null in it goes astray.** -/
theorem writeRun_puts {slots : List (Js × (Js → Write))} {items : List Item}
    (h : Forall₂ SlotPuts slots items) (hlt : items.length < 2 ^ 32) :
    Puts (writeRun slots) (Bridge.slots (items.map Item.out)) fun pos =>
      AnyHighNull (slotRuns items pos) := by
  intro b
  have hflg : (items.map Item.out).map Option.isNone = items.map Option.isNone := by
    rw [List.map_map]
    exact map_congr_left fun item _ => by cases item <;> rfl
  have hsl : Bridge.slots (items.map Item.out) =
      packBits (items.map Option.isNone) ++ payloads items := by
    rw [Bridge.slots, hflg, flatMap_map]
    rfl
  generalize hfl : items.map Option.isNone = flags at hsl
  have hcnt : flags.length = items.length := by rw [← hfl, length_map]
  obtain ⟨pre, bf, _, pay, hrun, hpre, hbf, hpost, hpay, hbad, hgood⟩ :=
    writeSlots_puts 0 b (replicate (bitfieldBytes items.length) 0) [] h (by omega)
      (by rw [length_replicate, bitfieldBytes]; omega)
  obtain rfl := length_eq_zero_iff.mp hpost
  rw [length_replicate] at hbf
  simp only [length_replicate, length_nil, Nat.add_zero, hfl] at hbad hgood
  have hpack : orBits (replicate (bitfieldBytes items.length) 0) (lowFlags flags 0) 0 =
      packBits (lowFlags flags 0) := by
    rw [packBits, lowFlags, length_mapIdx, hcnt]
  rw [hpack] at hgood
  refine ⟨pre, bf ++ pay, ?_, hpre, ?_, fun hn => ?_, fun hany heq => ?_⟩
  · rw [writeRun, h.length_eq]
    rw [append_nil] at hrun
    exact hrun
  · rw [hsl, length_append, length_append, hbf, hpay, packBits_length, hcnt]
  · dsimp only at hn
    rw [slotRuns, anyHighNull_cons, not_or, hfl] at hn
    have hlow : ∀ k, flags[k]? = some true → 0 + k < 2 ^ 31 := by
      intro k hk
      by_contra hge
      exact hn.1 ⟨k, by omega, hk⟩
    obtain ⟨rfl, -, rfl, hpreeq⟩ := hgood hn.2
    rw [hsl, lowFlags_eq_self hlow]
    exact ⟨hpreeq hlow, rfl⟩
  · rw [hsl] at heq
    obtain ⟨rfl, rfl⟩ := append_inj heq (by rw [hbf, packBits_length, hcnt])
    dsimp only at hany
    rw [slotRuns, anyHighNull_cons, hfl] at hany
    have hn := fun hinn => hbad hinn rfl
    obtain ⟨-, -, hbits, -⟩ := hgood hn
    obtain ⟨i, _, hflag⟩ := hany.resolve_right hn
    -- the bit of that null is set on one side and clear on the other
    have hbit : readBit (packBits flags) i =
        readBit (packBits (lowFlags flags 0)) i := by rw [← hbits]
    rw [readBit_packBits, readBit_packBits, getD_eq_getElem?_getD, getD_eq_getElem?_getD,
      lowFlags, getElem?_mapIdx, hflag] at hbit
    simp only [Option.map_some, Option.getD_some, Bool.true_and, Nat.zero_add] at hbit
    exact absurd (of_decide_eq_true hbit.symm) (by omega)

/-! ## The writers put the wire format -/

mutual

/-- The types `writeValue` has a writer for. A union falls through to `writeScalar`. -/
def encoderSupports : DataType → Bool
  | .struct fields => fieldsEncoderSupports fields
  | .list _ ⟨_, t, _⟩ | .fixedSizeList ⟨_, t, _⟩ _ => encoderSupports t
  | .map ⟨_, kt, _⟩ ⟨_, vt, _⟩ _ => encoderSupports kt && encoderSupports vt
  | .union _ _ _ => false
  | _ => true

def fieldsEncoderSupports : List Field → Bool
  | [] => true
  | ⟨_, t, _⟩ :: fs => encoderSupports t && fieldsEncoderSupports fs

end

theorem fieldsEncoderSupports_iff : ∀ {fields : List Field},
    fieldsEncoderSupports fields = true ↔ ∀ f ∈ fields, encoderSupports f.type = true
  | [] => by simp [fieldsEncoderSupports]
  | ⟨_, t, _⟩ :: fs => by simp [fieldsEncoderSupports, @fieldsEncoderSupports_iff fs]

theorem writeNumber_signed (h : bs.length = w) :
    writeNumber w (.number (signed bs)) = writeBytes bs := by
  rw [writeNumber, ← h, intBytes_signed]

theorem writeNumber_ofLe (h : bs.length = w) :
    writeNumber w (.number (ofLe bs)) = writeBytes bs := by
  rw [writeNumber, ← h, intBytes_ofLe]

theorem writeBigInt_signed (h : bs.length = 8) :
    writeBigInt (.bigint (signed bs)) = writeBytes bs := by
  rw [writeBigInt, ← h, intBytes_signed]

theorem writeBigInt_ofLe (h : bs.length = 8) : writeBigInt (.bigint (ofLe bs)) = writeBytes bs := by
  rw [writeBigInt, ← h, intBytes_ofLe]

theorem writeFloat_eq (h : bs.length = w) :
    writeFloat w (.float bs) = writeBytes bs := if_pos h

theorem writeBytes_seq (d d' : Bytes) :
    (fun b => writeBytes d b >>= writeBytes d') = writeBytes (d ++ d') := by
  funext b
  simp only [writeBytes, ok_bind, append_assoc]

theorem writeDayTime_eq (h : bs.length = 8)
    (hd : property props "days" = .number (signed (bs.take 4)))
    (hm : property props "milliseconds" = .number (signed (bs.drop 4))) :
    writeScalar .intervalDayTime (.object props) = writeBytes bs := by
  have hcut : bs.take 4 ++ bs.drop 4 = bs := take_append_drop 4 bs
  rw [← hcut, ← writeBytes_seq, ← writeNumber_signed (by simp; omega : (bs.take 4).length = 4),
    ← writeNumber_signed (by simp; omega : (bs.drop 4).length = 4), ← hd, ← hm]
  rfl

theorem writeMonthDayNano_eq (h : bs.length = 16)
    (hm : property props "months" = .number (signed (bs.take 4)))
    (hd : property props "days" = .number (signed ((bs.drop 4).take 4)))
    (hn : property props "nanoseconds" = .bigint (signed (bs.drop 8))) :
    writeScalar .intervalMonthDayNano (.object props) = writeBytes bs := by
  have hcut : bs.take 4 ++ ((bs.drop 4).take 4 ++ bs.drop 8) = bs := by
    rw [← drop_drop (i := 4) (j := 4), take_append_drop, take_append_drop]
  rw [← hcut, ← writeBytes_seq, ← writeBytes_seq,
    ← writeNumber_signed (by simp; omega : (bs.take 4).length = 4),
    ← writeNumber_signed (by simp; omega : ((bs.drop 4).take 4).length = 4),
    ← writeBigInt_signed (by simp; omega : (bs.drop 8).length = 8), ← hm, ← hd, ← hn]
  rfl

/-- A fixed-width value is written as its bytes. -/
theorem writeScalar_fixed {wireType : WireTypeId} {fv : FixedValue}
    (ht : wireTypeOf t = some wireType) (hty : fv.type = t)
    (hs : ShowsScalar wireType js fv.repr) : writeScalar wireType js = writeBytes fv.repr := by
  have hsize := fv.size_eq
  rw [hty] at hsize
  cases t with
  | int8 | int16 | int32 | date32 | time32 | intervalMonths =>
    cases ht
    cases hs
    exact writeNumber_signed hsize
  | int64 | date64 | time64 =>
    cases ht
    cases hs
    exact writeBigInt_signed hsize
  | timestamp unit _ =>
    cases unit <;> cases ht
    cases hs
    exact writeBigInt_signed hsize
  | duration unit =>
    cases unit <;> cases ht
    cases hs
    exact writeBigInt_signed hsize
  | uint8 | uint16 | halfFloat | uint32 =>
    cases ht
    cases hs
    exact writeNumber_ofLe hsize
  | uint64 =>
    cases ht
    cases hs
    exact writeBigInt_ofLe hsize
  | float | double =>
    cases ht
    cases hs
    exact writeFloat_eq hsize
  | decimal128 | decimal256 =>
    cases ht
    cases hs
    rfl
  | intervalDayTime =>
    cases ht
    obtain ⟨props, rfl, hd, hm⟩ := hs
    exact writeDayTime_eq hsize hd hm
  | intervalMonthDayNano =>
    cases ht
    obtain ⟨props, rfl, hm, hd, hn⟩ := hs
    exact writeMonthDayNano_eq hsize hm hd hn
  | fixedSizeBinary w => cases ht

/-- A wire type of a fixed width is no composite's, so `writeValue` hands it on. -/
theorem writeValue_fixed (ht : wireTypeOf t = some fd.wireType)
    (js : Js) : writeValue fd js = writeScalar fd.wireType js := by
  obtain ⟨_, wireType, _, _, _, _, _, _⟩ := fd
  cases t with
  | timestamp unit _ => cases unit <;> cases ht; rfl
  | duration unit => cases unit <;> cases ht; rfl
  | fixedSizeBinary w => cases ht
  | _ => cases ht; rfl

theorem shows_fixed {V : View} {v : Value} (ht : wireTypeOf t = some fd.wireType) :
    Shows R V fd js v ↔ ∃ fv : FixedValue, v = .fixed fv ∧ ShowsScalar fd.wireType js fv.repr := by
  obtain ⟨_, wireType, _, _, _, _, _, _⟩ := fd
  cases t with
  | timestamp unit _ => cases unit <;> cases ht; rfl
  | duration unit => cases unit <;> cases ht; rfl
  | fixedSizeBinary w => cases ht
  | _ => cases ht; rfl

/-- What the recursion provides about values of a type and its descriptor. -/
def WritesAs (R : Runtime) (t : DataType) (fd : FieldDescriptor) : Prop :=
  ∀ js v, HasType t v → v.Encodable → Shows R .given fd js v →
    Puts (writeValue fd js) (wire t v) fun pos => AnyHighNull (runs t v pos)

theorem slotPuts_of_shows {t : DataType} {v : Value} (h : WritesAs R t fd) (hv : SlotOk t v)
    (hs : SlotShows .given (Shows R .given fd) js v) :
    SlotPuts (js, writeValue fd) (slotItem (wire t) (runs t) v) := by
  unfold SlotShows at hs
  cases hn : v.isNull with
  | true =>
    rw [hn, if_pos rfl] at hs
    rw [slotItem, if_pos hn]
    exact hs
  | false =>
    rw [hn, if_neg (by simp)] at hs
    rw [slotItem, if_neg (by simp [hn])]
    rcases hv.1 with rfl | hty
    · cases hn
    · exact ⟨hs.isNullish_eq, h js v hty hv.2 hs⟩

/-- The slots of a record. -/
theorem fieldSlots_put : ∀ {fields : List Field}
    {fds : List FieldDescriptor} {vs : List Value},
    Forall₂ (fun f fd => WritesAs R f.type fd) fields fds →
    Forall₂ (fun f v => SlotOk f.type v) fields vs →
    Forall₂ (fun p v => ∃ j, View.given.get props p.1 = some j ∧ SlotShows .given p.2 j v)
      (showsFields R .given fds) vs →
    Forall₂ SlotPuts ((writeFields fds).map fun f => (property props f.1, f.2))
      (fieldItems fields vs)
  | [], [], [], _, _, _ => .nil
  | f :: fields, fd :: fds, v :: vs, .cons h hfs, .cons hv hvs, .cons hs hss => by
    obtain ⟨j, hget, hj⟩ := hs
    cases hget
    exact .cons (slotPuts_of_shows h hv hj) (fieldSlots_put hfs hvs hss)

/-- The slots of an array. -/
theorem arraySlots_put {t : DataType} {items : List Js} {vs : List Value} (h : WritesAs R t fd)
    (hv : ∀ v ∈ vs, SlotOk t v) (hs : Forall₂ (SlotShows .given (Shows R .given fd)) items vs) :
    Forall₂ SlotPuts (items.map (·, writeValue fd)) (vs.map (slotItem (wire t) (runs t))) := by
  rw [forall₂_map_left_iff, forall₂_map_right_iff]
  exact (forall₂_and_right hs hv).imp fun js v hjv => slotPuts_of_shows h hjv.2 hjv.1

theorem slotItems_out (t : DataType) (vs : List Value) :
    (vs.map (slotItem (wire t) (runs t))).map Item.out = vs.map (slotOut (wire t)) := by
  rw [List.map_map]
  exact map_congr_left fun v _ => slotItem_out _ _ v

theorem writeKeys_put {t : DataType} (h : WritesAs R t fd) : ∀ {keys : List Js} {ks : List Value},
    Forall₂ (Shows R .given fd) keys ks → (∀ k ∈ ks, HasType t k ∧ k.Encodable) →
    Puts (writeKeys (writeValue fd) keys) (ks.flatMap (wire t)) fun pos =>
      AnyHighNull (itemRuns (ks.map (slotItem (wire t) (runs t))) pos)
  | [], [], .nil, _ => fun b =>
    ⟨b, [], by rw [writeKeys, append_nil], rfl, rfl, fun _ => ⟨rfl, rfl⟩,
      fun hany => absurd hany not_anyHighNull_nil⟩
  | key :: keys, k :: ks, .cons hk hks, hok => by
    obtain ⟨hty, henc⟩ := hok k mem_cons_self
    have hfst := h key k hty henc hk
    have hrest := writeKeys_put h hks fun k' hk' => hok k' (mem_cons_of_mem k hk')
    refine (hfst.seq hrest).congr fun pos => ?_
    rw [map_cons, slotItem, if_neg (by simp [hty.isNull_eq])]
    exact (anyHighNull_append ..).symm

theorem range_map_getD {α β : Type} (f : α → β) (items : List α) (a : α) :
    ((List.range items.length).map fun i => f (items.getD i a)) = items.map f := by
  apply ext_getElem
  · simp
  · intro i _ h₂
    have hi : i < items.length := by simpa using h₂
    simp [hi]

/-- A header that is always right in front of a run. -/
theorem puts_header {write : Write} {bad : Nat → Prop} (header : Bytes) (h : Puts write d bad) :
    Puts (fun b => writeBytes header b >>= write) (header ++ d) fun pos =>
      bad (pos + header.length) :=
  ((puts_writeBytes header).seq h).congr fun _ => or_iff_right id

/-- Bytes without a bitfield. -/
theorem puts_plain (d : Bytes) : Puts (writeBytes d) d fun _ => AnyHighNull [] :=
  (puts_writeBytes d).congr fun _ => (iff_false_intro not_anyHighNull_nil).symm

/-- **`writeValue` writes the wire format of what it is shown**, unless a null goes astray. -/
theorem writeValue_puts {t : DataType} (hd : Describes t fd) :
    encoderSupports t = true → WritesAs R t fd := by
  refine hd.induction ?bool ?fixed ?var ?struct ?list ?fixedSizeList ?map ?union <;>
    (intros; intro js v hty henc hs)
  case bool =>
    obtain ⟨b, rfl, rfl⟩ := hs
    exact puts_plain _
  case fixed hw _ =>
    obtain ⟨_, rfl, hsc⟩ := (shows_fixed hw).mp hs
    rw [writeValue_fixed hw, writeScalar_fixed hw hty hsc]
    exact puts_plain _
  case var t _ =>
    cases t <;>
    · obtain ⟨_, _, rfl, rfl⟩ := hs
      exact puts_plain _
  case struct fields fds hlen ih ht =>
    obtain ⟨_, vs, rfl, rfl, -, hs⟩ := hs
    rw [encoderSupports, fieldsEncoderSupports_iff] at ht
    rw [Value.Encodable, Value.allEncodable_iff] at henc
    rw [HasType, hasTypes_eq_map, forall₂_map_left_iff] at hty
    have hsl := fieldSlots_put (forall₂_imp_mem ih fun f hf _ h => h (ht f hf))
      (forall₂_and_right hty henc) hs
    have hcnt : (fieldItems fields vs).length < 2 ^ 32 := by
      rw [fieldItems, length_zipWith]
      unfold maxArrayLength at hlen
      omega
    have hrun := writeRun_puts hsl hcnt
    rw [fieldItems_out] at hrun
    rw [wire]
    simp only [runs_struct]
    exact hrun
  case list kind item e ih ht =>
    have harray : ∃ items vs, js = .array items ∧ v = .list vs ∧
        Forall₂ (SlotShows .given (Shows R .given e)) items vs := by cases kind <;> exact hs
    clear hs
    obtain ⟨items, vs, rfl, rfl, hs⟩ := harray
    rw [Value.Encodable, Value.allEncodable_iff] at henc
    have hsl := arraySlots_put (ih ht) (fun v hv => ⟨hty v hv, henc.2 v hv⟩) hs
    have hrun := writeRun_puts hsl (by rw [length_map]; exact henc.1)
    rw [slotItems_out] at hrun
    have hput := puts_header (leBytes 4 items.length) hrun
    rw [leBytes_length] at hput
    rw [wire, ← hs.length_eq]
    cases kind <;> exact hput
  case fixedSizeList _ ih ht =>
    obtain ⟨items, vs, rfl, rfl, hs⟩ := hs
    obtain ⟨hlen, hty⟩ := hty
    rw [Value.Encodable, Value.allEncodable_iff] at henc
    have hsl := arraySlots_put (ih ht) (fun v hv => ⟨hty v hv, henc.2 v hv⟩) hs
    have hrun := writeRun_puts hsl (by rw [length_map]; exact henc.1)
    rw [slotItems_out, ← range_map_getD _ items .undefined, hs.length_eq, hlen] at hrun
    rw [wire]
    exact hrun
  case map ihk ihv ht =>
    obtain ⟨entries, ks, vs, rfl, rfl, -, hks, hvs⟩ := hs
    rw [encoderSupports, Bool.and_eq_true] at ht
    obtain ⟨hlen, hkty, hvty⟩ := hty
    rw [Value.Encodable, Value.allEncodable_iff, Value.allEncodable_iff] at henc
    obtain ⟨hcnt, hkn, hkenc, hvenc⟩ := henc
    have hkeys := writeKeys_put (ihk ht.1) hks fun k hk => ⟨?_, hkenc k hk⟩
    · have hsl := arraySlots_put (ihv ht.2) (fun v hv => ⟨hvty v hv, hvenc v hv⟩) hvs
      have hrun := writeRun_puts hsl (by rw [length_map, ← hlen]; exact hcnt)
      rw [slotItems_out, List.map_map] at hrun
      have hput := puts_header (leBytes 4 entries.length) (hkeys.seq hrun)
      have hents : entries.length = ks.length := by rw [← hks.length_eq, length_map]
      rw [wire, ← hents]
      refine hput.congr fun pos => ?_
      rw [runs, anyHighNull_append, leBytes_length]
    · rcases hkty k hk with rfl | hty
      · exact absurd (hkn _ hk) (by simp [Value.isNull])
      · exact hty
  case union ht => cases ht

/-- **`encodePositional` writes the wire format of the row**, unless a null goes astray. -/
theorem encodePositional_puts {schema : Schema} {sd : SchemaDescriptor} {row : Row}
    (hd : DescribesSchema schema sd) (ht : ∀ f ∈ schema, encoderSupports f.type = true)
    (hv : Forall₂ (fun f v => SlotOk f.type v) schema row) (hs : ShowsRow R .given sd props row) :
    encodePositional sd props = .ok (wireRow schema row) ↔ ¬ AnyHighNull (rowRuns schema row) := by
  have hsl := fieldSlots_put (forall₂_imp_mem (describesAll_iff.mp hd.2) fun f hf _ hfd =>
    writeValue_puts hfd (ht f hf)) hv hs.2
  have hcnt : (fieldItems schema row).length < 2 ^ 32 := by
    have hlen := hd.1
    rw [fieldItems, length_zipWith]
    unfold maxArrayLength at hlen
    omega
  have hrun := writeRun_puts hsl hcnt
  rw [fieldItems_out] at hrun
  obtain ⟨b, d, hwrite, hb, -, hgood, hbad⟩ := hrun []
  obtain rfl := length_eq_zero_iff.mp hb
  rw [encodePositional, hwrite, nil_append]
  constructor
  · intro heq hany
    exact hbad hany (Except.ok.inj heq)
  · intro hn
    rw [(hgood hn).2]
    rfl

end Fletcher.Ts
