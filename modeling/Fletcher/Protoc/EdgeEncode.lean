import Fletcher.Bridge.CodecDecode
import Fletcher.Protoc.RowClass

/-!
# The generated writer

The statements `EdgeEncodeVisitor` emits for a member, as what they do to the
write buffer, and what a row object holds for them to read. `Encode()` of a row
class is `encode`.

The writer is held against the wire format: whatever it writes is the wire of the
object's values under the class's schema (`emitValue_writes`), as long as every
length and count fits the 32 bits it is narrowed to. When one does not, there is
no right answer for it to write: nothing the codec decodes has such a length.
-/

namespace Fletcher.Protoc

open Lib Arrow Bridge Fletcher.Core List Layout WriteBuffer

variable {kind : LogicalKind}

variable {members : List Stored} {x : Stored}

/-! ## Row objects -/

/-- A C++ scalar. Everything that is copied as an object representation is its
little-endian bytes. -/
inductive CppScalar where
  | bool (b : Bool)
  | word (repr : Bytes)
  | string (data : Bytes)
  deriving DecidableEq, Repr

/-- What a member, or an element of one, holds. -/
inductive Stored where
  /-- An empty `std::optional`. -/
  | unset
  | scalar (s : CppScalar)
  /-- An object of a row class, member by member. -/
  | object (members : List Stored)
  | vector (items : List Stored)
  | pairs (entries : List (CppScalar × Stored))

/-- The Arrow type of a kind that is stored as a word. -/
def LogicalKind.word? : LogicalKind → Option FixedType
  | .int32 => some .int32
  | .int64 => some .int64
  | .uint32 => some .uint32
  | .uint64 => some .uint64
  | .float32 => some .float
  | .float64 => some .double
  | .wktTimestamp => some (.timestamp .nano "")
  | .wktDuration => some (.duration .nano)
  | .bool | .utf8 | .binary => none

/-- A scalar of the kind's storage type. -/
def CppScalar.Stores (kind : LogicalKind) : CppScalar → Prop
  | .bool _ => kind = .bool
  | .word repr => ∃ t, kind.word? = some t ∧ repr.length = t.width
  | .string _ => kind = .utf8 ∨ kind = .binary

/-- `CppScalarInfo::default_value`. -/
def LogicalKind.defaultValue : LogicalKind → CppScalar
  | .bool => .bool false
  | .utf8 | .binary => .string []
  | .int32 | .uint32 | .float32 => .word [0, 0, 0, 0]
  | .int64 | .uint64 | .float64 | .wktTimestamp | .wktDuration => .word [0, 0, 0, 0, 0, 0, 0, 0]

/-- Scalars and structs are kept in a `std::optional`; only they honour a null bit. -/
def Layout.optionalShape : Layout → Bool
  | .scalar _ | .struct _ => true
  | .list _ | .map _ _ => false

variable (l : Layout)

/-- `StorageDecl`: whether a member is a `std::optional`. -/
def Layout.isOptional (nullable : Bool) : Bool :=
  match l with
  | .scalar _ | .struct _ => true
  | .list (.list _) => nullable
  | .list _ | .map _ _ => false

/-- A member of a default-constructed object. -/
def Layout.initial (nullable : Bool) : Stored :=
  match l with
  | .scalar _ | .struct _ => .unset
  | .list _ => if l.isOptional nullable then .unset else .vector []
  | .map _ _ => .pairs []

/-- What `value_or` falls back to. -/
def Layout.fallback : Layout → Stored
  | .scalar kind => .scalar kind.defaultValue
  | .struct fields => .object (fields.map fun f => f.type.initial f.nullable)
  | .list _ => .vector []
  | .map _ _ => .pairs []

mutual

/-- An element of the layout. -/
def Layout.Holds : Layout → Stored → Prop
  | .scalar kind, .scalar s => s.Stores kind
  | .list e, .vector items => ∀ x ∈ items, e.Holds x
  | .struct fields, .object members => List.Forall₂ (fun p x => p x) (membersHold fields) members
  | .map key value, .pairs entries => ∀ p ∈ entries, p.1.Stores key ∧ value.Holds p.2
  | _, _ => False

/-- A member: an element, or nothing where it is a `std::optional`. -/
def membersHold : RowClass → List (Stored → Prop)
  | [] => []
  | ⟨_, l, nullable⟩ :: fs =>
    (fun x => (l.isOptional nullable = true ∧ x = .unset) ∨ l.Holds x) :: membersHold fs

end

/-- An object of the class. -/
def RowClass.Holds (cls : RowClass) (members : List Stored) : Prop :=
  (struct cls).Holds (.object members)

/-! ## The values an object stands for -/

def CppScalar.value (kind : LogicalKind) : CppScalar → Value
  | .bool b => .bool b
  | .word repr =>
    match kind.word? with
    | some t => .fixed (FixedValue.ofBytes t repr)
    | none => .null
  | .string data => if kind = .utf8 then .binary .string data else .binary .binary data

/-- A member's value: an unset one is null where the field is nullable, and the
default of its type where it is not. -/
def memberValue (nullable : Bool) (value : Stored → Value) : Stored → Value
  | .unset => if nullable then .null else value l.fallback
  | x => value x

mutual

def Layout.value : Layout → Stored → Value
  | .scalar kind, .scalar s => s.value kind
  | .list e, .vector items => .list (items.map e.value)
  | .struct fields, .object members =>
    .struct (List.zipWith (fun f x => f x) (memberValues fields) members)
  | .map key value, .pairs entries =>
    .map (entries.map fun p => p.1.value key) (entries.map fun p => value.value p.2)
  | _, _ => .null

def memberValues : RowClass → List (Stored → Value)
  | [] => []
  | ⟨_, l, nullable⟩ :: fs => memberValue l nullable l.value :: memberValues fs

end

/-- The row an object stands for. -/
def RowClass.rowValues (cls : RowClass) (members : List Stored) : Row :=
  List.zipWith (fun f x => f x) (memberValues cls) members

/-! ## The writer -/

/-- The write method `LookupScalar` names for the kind. -/
def writeScalar (kind : LogicalKind) : CppScalar → Encode
  | .bool v, b => .ok (b.writeBool v)
  | .word repr, b => .ok (b.append repr)
  | .string data, b => .ok (if kind = .binary then b.writeBinary data else b.writeString data)

/-- `EmitField`: the slot a member is written to. -/
def emitField (nullable : Bool) (emit : Stored → Encode) (x : Stored) :
    Option Encode :=
  if l.optionalShape then
    match x with
    | .unset => if nullable then none else some (emit l.fallback)
    | x => some (emit x)
  else some (emit x)

mutual

/-- `EmitValue`. -/
def emitValue : Layout → Stored → Encode
  | .scalar kind, .scalar s, b => writeScalar kind s b
  | .list e, .vector items, b =>
    let (_, b) := b.beginList items.length
    -- The loop counter is a `uint32_t` compared with the size: it never reaches 2^32.
    if items.length < 2 ^ 32 then writePayloads (items.map fun x => some (emitValue e x)) b
    else .error .diverges
  | .struct fields, .object members, b =>
    encodeFields (List.zipWith (fun f x => f x) (memberEncoders fields) members) fields.length b
  | .map key value, .pairs entries, b => do
    let (mc, b) := b.beginMap entries.length
    let b ← writePayloads (entries.map fun p => some (writeScalar key p.1)) b
    let (_, b) := mc.beginValues b
    writePayloads (entries.map fun p => some (emitValue value p.2)) b
  | _, _, _ => .error .undefined

/-- The slot of each member, by `EncodeStructTo_`. -/
def memberEncoders : RowClass → List (Stored → Option Encode)
  | [] => []
  | ⟨_, l, nullable⟩ :: fs => emitField l nullable (emitValue l) :: memberEncoders fs

end

/-- `Encode()`. -/
def encode (cls : RowClass) (members : List Stored) : Except Error Bytes :=
  (emitValue (.struct cls) (.object members) .empty).map bytes

mutual

/-- No member, at any depth, is a nested list that may be null: the writer for one
does not compile. -/
def Layout.compiles : Layout → Bool
  | .scalar _ => true
  | .list e => e.compiles
  | .struct fields => membersCompile fields
  | .map _ value => value.compiles

def membersCompile : RowClass → Bool
  | [] => true
  | ⟨_, l, nullable⟩ :: fs =>
    (l.optionalShape || !l.isOptional nullable) && l.compiles && membersCompile fs

end

/-! ## Members by position -/

/-- What a member may hold. -/
def MemberHolds (f : FieldOf Layout) (x : Stored) : Prop :=
  (f.type.isOptional f.nullable = true ∧ x = .unset) ∨ f.type.Holds x

theorem membersHold_eq_map : ∀ cls, membersHold cls = cls.map MemberHolds
  | [] => rfl
  | ⟨_, _, _⟩ :: fs => by rw [membersHold, membersHold_eq_map fs]; rfl

theorem memberValues_eq_map : ∀ cls, memberValues cls =
    cls.map (fun f => memberValue f.type f.nullable f.type.value)
  | [] => rfl
  | ⟨_, _, _⟩ :: fs => by rw [memberValues, memberValues_eq_map fs]; rfl

theorem memberEncoders_eq_map : ∀ cls, memberEncoders cls =
    cls.map (fun f => emitField f.type f.nullable (emitValue f.type))
  | [] => rfl
  | ⟨_, _, _⟩ :: fs => by rw [memberEncoders, memberEncoders_eq_map fs]; rfl

theorem membersCompile_iff : ∀ {cls : RowClass}, membersCompile cls = true ↔
    ∀ f ∈ cls, (f.type.optionalShape = true ∨ f.type.isOptional f.nullable = false) ∧
      f.type.compiles = true
  | [] => by simp [membersCompile]
  | ⟨_, _, _⟩ :: fs => by simp [membersCompile, @membersCompile_iff fs, and_assoc]

theorem holds_struct {fields : RowClass} :
    (struct fields).Holds (.object members) ↔ Forall₂ MemberHolds fields members := by
  rw [Layout.Holds, membersHold_eq_map, forall₂_map_left_iff]

theorem not_holds_unset : ¬ l.Holds .unset := by
  cases l <;> simp [Layout.Holds]

theorem memberValue_of_holds {l : Layout} {nullable : Bool} (h : l.Holds x) :
    memberValue l nullable l.value x = l.value x := by
  cases x with
  | unset => exact absurd h (not_holds_unset l)
  | _ => rfl

theorem emitField_of_holds {l : Layout} {nullable : Bool} {emit : Stored → Encode}
    (h : l.Holds x) : emitField l nullable emit x = some (emit x) := by
  cases x with
  | unset => exact absurd h (not_holds_unset l)
  | _ => simp [emitField]

/-! ## Defaults -/

theorem defaultValue_stores (kind : LogicalKind) : kind.defaultValue.Stores kind := by
  cases kind <;> simp [LogicalKind.defaultValue, CppScalar.Stores, LogicalKind.word?,
    FixedType.width, FixedType.members]

/-- A default-constructed object is an object of its class. -/
theorem initial_holds (f : FieldOf Layout) : MemberHolds f (f.type.initial f.nullable) := by
  obtain ⟨_, l, nullable⟩ := f
  cases l with
  | scalar _ => exact .inl ⟨rfl, rfl⟩
  | struct _ => exact .inl ⟨rfl, rfl⟩
  | map _ _ =>
    refine .inr ?_
    simp [initial, Layout.Holds]
  | list e =>
    by_cases hopt : (list e).isOptional nullable = true
    · exact .inl ⟨hopt, by simp [initial, hopt]⟩
    · refine .inr ?_
      simp [initial, hopt, Layout.Holds]

theorem fallback_holds : l.Holds l.fallback := by
  cases l with
  | scalar kind => exact defaultValue_stores kind
  | struct _ =>
    rw [fallback, holds_struct, forall₂_map_right_iff]
    exact forall₂_same.mpr fun f _ => initial_holds f
  | list e => simp [fallback, Layout.Holds]
  | map _ _ => simp [fallback, Layout.Holds]

/-! ## Types -/

theorem emitScalarType_word {t : FixedType} (h : kind.word? = some t) :
    emitScalarType kind = .fixed t := by
  cases kind <;> simp_all [LogicalKind.word?, emitScalarType]

theorem scalarValue_hasType {c : CppScalar} (h : c.Stores kind) :
    HasType (emitScalarType kind) (c.value kind) := by
  cases c with
  | bool b =>
    obtain rfl : kind = .bool := h
    trivial
  | word _ =>
    obtain ⟨t, ht, -⟩ := h
    simp [CppScalar.value, ht, emitScalarType_word ht, HasType]
  | string _ => rcases h with rfl | rfl <;> simp [CppScalar.value, emitScalarType, HasType]

theorem rowValues_eq (cls : RowClass) (members : List Stored) : cls.rowValues members =
    zipWith (fun f x => memberValue f.type f.nullable f.type.value x) cls members := by
  rw [RowClass.rowValues, memberValues_eq_map, zipWith_map_left]

theorem value_struct (fields : RowClass) (members : List Stored) :
    (struct fields).value (.object members) = .struct (fields.rowValues members) := by
  rw [value, RowClass.rowValues]

theorem memberValue_slot {f : FieldOf Layout}
    (hty : ∀ {x}, f.type.Holds x → HasType f.type.dataType (f.type.value x))
    (hx : MemberHolds f x) :
    Slot (HasType f.type.dataType) (memberValue f.type f.nullable f.type.value x) := by
  rcases hx with ⟨_, rfl⟩ | hx
  · cases hn : f.nullable with
    | true => exact .inl (by simp [memberValue])
    | false =>
      refine .inr ?_
      simp only [memberValue, Bool.false_eq_true, if_false]
      exact hty (fallback_holds f.type)
  · rw [memberValue_of_holds hx]
    exact .inr (hty hx)

/-- An object's values have the types of its class's schema. -/
theorem value_hasType (hx : l.Holds x) : HasType l.dataType (l.value x) := by
  induction l generalizing x with
  | scalar _ =>
    cases x <;> simp only [Layout.Holds] at hx
    exact scalarValue_hasType hx
  | list e ih =>
    cases x <;> simp only [Layout.Holds] at hx
    intro v hv
    obtain ⟨y, hy, rfl⟩ := mem_map.mp hv
    exact .inr (ih (hx y hy))
  | struct _ ih =>
    cases x <;> try simp only [Layout.Holds] at hx
    rename_i members
    have hmbs := holds_struct.mp hx
    rw [value_struct, dataType, HasType, hasTypes_eq_map, schemaOf_eq_map, List.map_map,
      forall₂_map_left_iff, rowValues_eq]
    exact forall₂_zipWith hmbs fun f hf x hx => memberValue_slot (ih f hf) hx
  | map _ value ih =>
    cases x <;> simp only [Layout.Holds] at hx
    rename_i entries
    refine ⟨by simp, fun k hk => ?_, fun v hv => ?_⟩
    · obtain ⟨p, hp, rfl⟩ := mem_map.mp hk
      exact .inr (scalarValue_hasType (hx p hp).1)
    · obtain ⟨p, hp, rfl⟩ := mem_map.mp hv
      exact .inr (ih (hx p hp).2)

/-- The codec carries every type a row class has. -/
theorem dataType_supported : l.dataType.supported = true := by
  induction l with
  | scalar kind => cases kind <;> rfl
  | list e ih => exact ih
  | struct _ ih =>
    rw [dataType, DataType.supported, fieldsSupported_iff, schemaOf_eq_map]
    simpa using ih
  | map key _ ih =>
    rw [dataType, DataType.supported, Bool.and_eq_true]
    exact ⟨by cases key <;> rfl, ih⟩

theorem dataType_fixedSizesFit : fixedSizesFit l.dataType = true := by
  induction l with
  | scalar kind => cases kind <;> rfl
  | list e ih => exact ih
  | struct _ ih =>
    rw [dataType, fixedSizesFit, sizesBelow, fieldsSizesBelow_iff, schemaOf_eq_map]
    simpa [fixedSizesFit] using ih
  | map key _ ih =>
    rw [dataType, fixedSizesFit, sizesBelow, Bool.and_eq_true]
    exact ⟨by cases key <;> rfl, ih⟩

theorem forall_schemaOf {P : DataType → Prop} (h : ∀ l : Layout, P l.dataType) (cls : RowClass) :
    ∀ f ∈ schemaOf cls, P f.type := by
  rw [schemaOf_eq_map]
  intro f hf
  obtain ⟨g, -, rfl⟩ := mem_map.mp hf
  exact h g.type

/-! ## The writer writes the wire format -/

theorem writeScalar_writes {c : CppScalar} (h : c.Stores kind) (henc : (c.value kind).Encodable) :
    Writes (writeScalar kind c) (wire (emitScalarType kind) (c.value kind)) := by
  intro b
  cases c with
  | bool v =>
    obtain rfl : kind = .bool := h
    rfl
  | word _ =>
    obtain ⟨t, ht, hlen⟩ := h
    simp [writeScalar, CppScalar.value, ht, emitScalarType_word ht, wire,
      FixedValue.ofBytes_repr hlen]
  | string data =>
    rcases h with rfl | rfl
    · -- the narrowed length is the length, so nothing is cut off
      have hfit : data.length % 2 ^ 32 = data.length := Nat.mod_eq_of_lt henc
      simp only [writeScalar, writeString, hfit]
      simp [CppScalar.value, emitScalarType, wire, appendU32]
    · simp [writeScalar, CppScalar.value, emitScalarType, wire, writeBinary,
        appendU32]

theorem writeEach_writes {α : Type} {enc : α → Encode} {out : α → Bytes} {items : List α}
    (h : ∀ x ∈ items, Writes (enc x) (out x)) :
    Writes (writePayloads (items.map fun x => some (enc x))) (items.flatMap out) := by
  have hsl : Forall₂ SlotWrites (items.map fun x => some (enc x))
      (items.map fun x => some (out x)) := by
    rw [forall₂_map_left_iff, forall₂_map_right_iff]
    exact forall₂_same.mpr h
  have hw := writePayloads_writes hsl
  rwa [flatMap_map] at hw

/-- What the recursion provides about elements of a layout. -/
def WriteOk : Prop :=
  ∀ x, l.Holds x → (l.value x).Encodable → Writes (emitValue l x) (wire l.dataType (l.value x))

theorem emitField_writes {f : FieldOf Layout} (hw : WriteOk f.type)
    (hc : f.type.optionalShape = true ∨ f.type.isOptional f.nullable = false) (hx : MemberHolds f x)
    (henc : (memberValue f.type f.nullable f.type.value x).Encodable) :
    SlotWrites (emitField f.type f.nullable (emitValue f.type) x)
      (slotOut (wire f.type.dataType) (memberValue f.type f.nullable f.type.value x)) := by
  rcases hx with ⟨hopt, rfl⟩ | hx
  · have hshp : f.type.optionalShape = true := by
      rcases hc with hshp | hpln
      · exact hshp
      · rw [hopt] at hpln; cases hpln
    cases hn : f.nullable with
    | true => simp [emitField, memberValue, hshp, slotOut, Value.isNull, SlotWrites]
    | false =>
      have hfall := fallback_holds f.type
      rw [hn] at henc
      simp only [memberValue, Bool.false_eq_true, if_false] at henc ⊢
      rw [slotOut_of_not_null (value_hasType f.type hfall).isNull_eq]
      simpa [emitField, hshp, SlotWrites] using hw _ hfall henc
  · rw [memberValue_of_holds hx] at henc ⊢
    rw [emitField_of_holds hx, slotOut_of_not_null (value_hasType f.type hx).isNull_eq]
    exact hw x hx henc

/-- Member after member, the slots of an object are the slots of its values. -/
theorem memberEncoders_write : ∀ {fields : RowClass} {members : List Stored},
    Forall₂ MemberHolds fields members → (∀ f ∈ fields, WriteOk f.type) →
    membersCompile fields = true → (∀ v ∈ fields.rowValues members, v.Encodable) →
    Forall₂ SlotWrites (zipWith (fun f x => f x) (memberEncoders fields) members)
      (zipWith slotOut (wires (schemaOf fields)) (fields.rowValues members))
  | [], [], _, _, _, _ => .nil
  | f :: fields, x :: members, .cons hx hxs, hw, hc, henc => by
    have hcom := membersCompile_iff.mp hc
    have hrest : membersCompile fields = true :=
      membersCompile_iff.mpr fun g hg => hcom g (by simp [hg])
    simp only [rowValues_eq, memberEncoders_eq_map, schemaOf_eq_map, wires_eq_map, map_cons,
      zipWith_cons_cons, mem_cons, forall_eq_or_imp] at henc hw hcom ⊢
    refine .cons (emitField_writes hw.1 hcom.1.1 hx henc.1) ?_
    have ih := memberEncoders_write hxs hw.2 hrest (by rw [rowValues_eq]; exact henc.2)
    simpa only [rowValues_eq, memberEncoders_eq_map, schemaOf_eq_map, wires_eq_map] using ih

theorem encodeMembers_writes {fields : RowClass}
    (hx : Forall₂ MemberHolds fields members) (hw : ∀ f ∈ fields, WriteOk f.type)
    (hc : membersCompile fields = true) (henc : ∀ v ∈ fields.rowValues members, v.Encodable) :
    Writes (emitValue (.struct fields) (.object members))
      (wireRow (schemaOf fields) (fields.rowValues members)) := by
  have hcnt : (zipWith (fun f x => f x) (memberEncoders fields) members).length =
      fields.length := by
    simp [memberEncoders_eq_map, hx.length_eq]
  exact encodeFields_writes (memberEncoders_write hx hw hc henc) hcnt

/-- **What the writer writes is the wire of the values.** -/
theorem emitValue_writes (hc : l.compiles = true) : WriteOk l := by
  induction l with
  | scalar _ =>
    intro x hx henc
    cases x <;> simp only [Layout.Holds] at hx
    exact writeScalar_writes hx henc
  | list e ih =>
    intro x hx henc b
    cases x <;> simp only [Layout.Holds] at hx
    rename_i items
    rw [value, Value.Encodable, Value.allEncodable_iff, length_map] at henc
    have hpre : ∀ v ∈ items.map e.value, v.isNull = false := by
      intro v hv
      obtain ⟨y, hy, rfl⟩ := mem_map.mp hv
      exact (value_hasType e (hx y hy)).isNull_eq
    have hits : ∀ y ∈ items, Writes (emitValue e y) (wire e.dataType (e.value y)) :=
      fun y hy => ih hc y (hx y hy) (henc.2 _ (mem_map_of_mem hy))
    simp only [emitValue, beginList_eq henc.1, if_pos henc.1]
    rw [writeEach_writes hits, value, dataType, wire, slots_present hpre]
    simp [beginFixedSizeList, appendU32, appendZeros, flatMap_map]
  | struct _ ih =>
    intro x hx henc
    cases x <;> try simp only [Layout.Holds] at hx
    rename_i members
    rw [value_struct] at henc ⊢
    rw [Value.Encodable, Value.allEncodable_iff] at henc
    rw [compiles] at hc
    exact encodeMembers_writes (holds_struct.mp hx)
      (fun f hf => ih f hf (membersCompile_iff.mp hc f hf).2) hc henc
  | map key value ih =>
    intro x hx henc b
    cases x <;> simp only [Layout.Holds] at hx
    rename_i entries
    rw [Layout.value, Value.Encodable, Value.allEncodable_iff, Value.allEncodable_iff,
      length_map] at henc
    obtain ⟨hfit, -, hkeys, hvalues⟩ := henc
    have hks : ∀ p ∈ entries, Writes (writeScalar key p.1)
        (wire (emitScalarType key) (p.1.value key)) :=
      fun p hp => writeScalar_writes (hx p hp).1 (hkeys _ (mem_map.mpr ⟨p, hp, rfl⟩))
    have hvs : ∀ p ∈ entries, Writes (emitValue value p.2)
        (wire value.dataType (value.value p.2)) :=
      fun p hp => ih hc p.2 (hx p hp).2 (hvalues _ (mem_map.mpr ⟨p, hp, rfl⟩))
    have hpre : ∀ v ∈ entries.map (fun p => value.value p.2), v.isNull = false := by
      intro v hv
      obtain ⟨p, hp, rfl⟩ := mem_map.mp hv
      exact (value_hasType value (hx p hp).2).isNull_eq
    simp only [emitValue, beginMap, MapContext.beginValues, Nat.mod_eq_of_lt hfit]
    rw [writeEach_writes hks]
    dsimp only [bind, Except.bind]
    rw [writeEach_writes hvs, Layout.value, Layout.dataType, wire, slots_present hpre]
    simp [appendU32, appendZeros, flatMap_map]

/-- The writer lays an object down as the row it stands for. -/
theorem encode_eq_wireRow {cls : RowClass} (hc : membersCompile cls = true)
    (hx : cls.Holds members) (henc : ∀ v ∈ cls.rowValues members, v.Encodable) :
    encode cls members = .ok (wireRow (schemaOf cls) (cls.rowValues members)) := by
  have hw := encodeMembers_writes (holds_struct.mp hx)
    (fun f hf => emitValue_writes f.type (membersCompile_iff.mp hc f hf).2) hc henc
  rw [encode, hw]
  rfl

theorem rowValues_slots {cls : RowClass} (hx : cls.Holds members) :
    Forall₂ (fun f v => Slot (HasType f.type) v) (schemaOf cls) (cls.rowValues members) := by
  rw [schemaOf_eq_map, forall₂_map_left_iff, rowValues_eq]
  exact forall₂_zipWith (holds_struct.mp hx) fun f _ x hx =>
    memberValue_slot (value_hasType f.type) hx

def stopClass : RowClass := [⟨"id", .scalar .int32, false⟩, ⟨"label", .scalar .utf8, false⟩]

def routeClass : RowClass :=
  [⟨"stops", .list (.struct stopClass), false⟩, ⟨"open", .scalar .bool, true⟩]

/-- One stop, its `id` unset and its `label` "a"; `open` is unset. -/
def oneStop : List Stored := [.vector [.object [.unset, .scalar (.string [97])]], .unset]

theorem oneStop_holds : routeClass.Holds oneStop := by
  have hlab : (scalar .utf8).Holds (.scalar (.string [97])) := .inl rfl
  have hstop : (struct stopClass).Holds (.object [.unset, .scalar (.string [97])]) :=
    holds_struct.mpr (.cons (.inl ⟨rfl, rfl⟩) (.cons (.inr hlab) .nil))
  refine holds_struct.mpr (.cons (.inr ?_) (.cons (.inl ⟨rfl, rfl⟩) .nil))
  intro x hx
  rwa [mem_singleton.mp hx]

end Fletcher.Protoc
