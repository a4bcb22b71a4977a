import Fletcher.Core.PositionalReader
import Fletcher.Protoc.EdgeEncode

/-!
# The generated reader

The statements `EdgeDecodeVisitor` emits for a member, as what they read, and the
constructor and `DecodeInto` of a row class made of them.

The reader looks at a null bit in three places only: before a nullable scalar, before
a nullable struct, and before a nullable list of lists. It reads the bitfields of lists
and map values without looking at them, and it never asks whether a plain list or a map
member is null. A null in one of those places has no bytes, so the reader takes the
bytes of whatever comes next for it. `NullsHonoured` says that a row has no such null,
and it is exactly the rows the constructor gives back (`construct_encodeRow_iff`):
what the reader builds never has one.
-/

namespace Fletcher.Protoc

open Lib Arrow Bridge Fletcher.Core Reader List CppScalar
open PositionalReader hiding Read readBytes make

variable {f : FieldOf Layout} {vs : List Value} {cls : RowClass} {v : Value}

/-! ## The reader -/

/-- The read method `LookupScalar` names for the kind. -/
def readScalar : LogicalKind → Read CppScalar
  | .bool => do
    let b ← readBool
    pure (.bool b)
  | .utf8 | .binary => do
    let data ← readString
    pure (.string data)
  | .int32 | .uint32 | .float32 => do
    let repr ← PositionalReader.readBytes 4
    pure (.word repr)
  | .int64 | .uint64 | .float64 | .wktTimestamp | .wktDuration => do
    let repr ← PositionalReader.readBytes 8
    pure (.word repr)

/-- The emitted statements for member `k`, which holds `old` so far. -/
def readMember (l : Layout) (nullable : Bool) (read : Read Stored) (r : PositionalReader) (k : Nat)
    (old : Stored) : Read Stored :=
  if nullable && l.isOptional nullable then do
    let null ← Reader.lift (r.isNull k)
    if null then
      -- Scalars and structs are reset; the nested list has no `else`.
      pure (if l.optionalShape then .unset else old)
    else read
  else read

/-- A member's statements, given the reader, the member's index and what it holds. -/
abbrev MemberReader := PositionalReader → Nat → Stored → Read Stored

/-- `DecodeFrom_`: member after member, from index `k` on. -/
def decodeFrom (r : PositionalReader) : List MemberReader → Nat → List Stored → Read (List Stored)
  | read :: reads, k, old :: olds => do
    let x ← read r k old
    let xs ← decodeFrom r reads (k + 1) olds
    pure (x :: xs)
  | _, _, _ => pure []

/-- The members of a default-constructed object. -/
def RowClass.initial (cls : RowClass) : List Stored := cls.map fun f => f.type.initial f.nullable

mutual

/-- A value that is there: an element, or a member that is not null. -/
def readValue : Layout → Read Stored
  | .scalar kind => do
    let s ← readScalar kind
    pure (.scalar s)
  | .list e => do
    let (count, _) ← readListHeader
    let items ← runAll (List.replicate count (readValue e))
    pure (.vector items)
  | .struct fields => do
    let r ← readStruct fields.length
    let members ← decodeFrom r (memberReaders fields) 0 (RowClass.initial fields)
    pure (.object members)
  | .map key value => do
    let count ← readMapCount
    let keys ← runAll (List.replicate count (readScalar key))
    let _ ← readMapValueBitfield count
    let values ← runAll (List.replicate count (readValue value))
    pure (.pairs (keys.zip values))

/-- The statements of each member. -/
def memberReaders : RowClass → List MemberReader
  | [] => []
  | ⟨_, l, nullable⟩ :: fs => readMember l nullable (readValue l) :: memberReaders fs

end

/-- `DecodeInto` over an object that holds `olds`. Bytes that are left over are left. -/
def decodeInto (cls : RowClass) (olds : List Stored) (bytes : Bytes) : Except Error (List Stored) :=
  let read : Read (List Stored) := do
    let r ← PositionalReader.make cls.length
    decodeFrom r (memberReaders cls) 0 olds
  (read bytes).map Prod.fst

/-- The constructor from bytes. -/
def construct (cls : RowClass) (bytes : Bytes) : Except Error (List Stored) :=
  decodeInto cls cls.initial bytes

/-! ## The nulls the reader looks at -/

mutual

/-- No null in the value but where the reader asks for one. -/
def NullsHonoured : Layout → Value → Prop
  | .list e, .list vs => ∀ v ∈ vs, v.isNull = false ∧ NullsHonoured e v
  | .struct fields, .struct vs => List.Forall₂ (fun p v => p v) (membersHonoured fields) vs
  | .map _ value, .map _ vs => ∀ v ∈ vs, v.isNull = false ∧ NullsHonoured value v
  | _, _ => True

/-- A member may be null where it is kept in a `std::optional`. -/
def membersHonoured : RowClass → List (Value → Prop)
  | [] => []
  | ⟨_, l, nullable⟩ :: fs => SlotAllows (l.isOptional nullable) (NullsHonoured l) ::
    membersHonoured fs

end

/-- No list element, map value, plain list or map of the row is null. -/
def RowHonoured (cls : RowClass) (row : Row) : Prop :=
  NullsHonoured (.struct cls) (.struct row)

theorem membersHonoured_eq_map : ∀ cls, membersHonoured cls =
    cls.map (fun f => SlotAllows (f.type.isOptional f.nullable) (NullsHonoured f.type))
  | [] => rfl
  | ⟨_, _, _⟩ :: fs => by rw [membersHonoured, membersHonoured_eq_map fs]; rfl

theorem memberReaders_eq_map : ∀ cls, memberReaders cls =
    cls.map (fun f => readMember f.type f.nullable (readValue f.type))
  | [] => rfl
  | ⟨_, _, _⟩ :: fs => by rw [memberReaders, memberReaders_eq_map fs]; rfl

theorem rowHonoured_iff {row : Row} : RowHonoured cls row ↔
    Forall₂ (fun f v => SlotAllows (f.type.isOptional f.nullable) (NullsHonoured f.type) v)
      cls row := by
  rw [RowHonoured, NullsHonoured, membersHonoured_eq_map, forall₂_map_left_iff]

/-! ## What the reader builds -/

theorem readScalar_word {kind : LogicalKind} {t : FixedType} (h : kind.word? = some t) :
    readScalar kind = (PositionalReader.readBytes t.width >>= fun repr => pure (.word repr)) := by
  cases kind <;> cases h <;> rfl

theorem yields_readScalar (kind : LogicalKind) :
    Yields (readScalar kind) (CppScalar.Stores kind) := by
  cases hk : kind.word? with
  | some t =>
    rw [readScalar_word hk]
    exact yields_take.bind fun repr hlen => yields_pure ⟨t, hk, hlen⟩
  | none =>
    cases kind with
    | bool => exact yields_after fun b => yields_pure rfl
    | utf8 => exact yields_after fun data => yields_pure (.inl rfl)
    | binary => exact yields_after fun data => yields_pure (.inr rfl)
    | _ => cases hk

theorem yields_readMember {read : Read Stored} {old : Stored}
    (hread : Yields read f.type.Holds) (hold : MemberHolds f old) (r : PositionalReader) (k : Nat) :
    Yields (readMember f.type f.nullable read r k old) (MemberHolds f) := by
  unfold readMember
  split
  · next hgate =>
    rw [Bool.and_eq_true] at hgate
    refine yields_after fun null => ?_
    cases null with
    | true =>
      refine yields_pure ?_
      cases f.type.optionalShape with
      | true => exact .inl ⟨hgate.2, rfl⟩
      | false => exact hold
    | false => exact hread.mono fun x hx => .inr hx
  · exact hread.mono fun x hx => .inr hx

/-- Reading into an object of the class leaves an object of the class. -/
theorem yields_decodeFrom (r : PositionalReader) :
    ∀ {fields : RowClass} {olds : List Stored} (k : Nat),
    Forall₂ MemberHolds fields olds →
    (∀ f ∈ fields, Yields (readValue f.type) f.type.Holds) →
    Yields (decodeFrom r (memberReaders fields) k olds) (Forall₂ MemberHolds fields)
  | [], [], _, _, _ => yields_pure .nil
  | f :: fields, old :: olds, k, .cons hold holds, hread => by
    have hrest := yields_decodeFrom r (k + 1) holds fun g hg => hread g (mem_cons_of_mem f hg)
    rw [memberReaders_eq_map] at hrest ⊢
    exact (yields_readMember (hread f mem_cons_self) hold r k).bind fun x hx =>
      hrest.bind fun xs hxs => yields_pure (.cons hx hxs)

theorem initial_members (cls : RowClass) : Forall₂ MemberHolds cls cls.initial := by
  rw [RowClass.initial, forall₂_map_right_iff]
  exact forall₂_same.mpr fun f _ => initial_holds f

theorem readValue_holds (l : Layout) : Yields (readValue l) l.Holds := by
  induction l with
  | scalar kind => exact (yields_readScalar kind).bind fun s hs => yields_pure hs
  | list e ih =>
    refine yields_after fun header => ?_
    have hits : Yields (runAll (replicate header.1 (readValue e)))
        fun items => ∀ x ∈ items, e.Holds x :=
      (yields_runAll_all fun x hx => eq_of_mem_replicate hx ▸ ih).mono fun items h => h.2
    exact hits.bind fun items h => yields_pure h
  | struct fields ih =>
    refine yields_after fun r => ?_
    exact (yields_decodeFrom r 0 (initial_members fields) ih).bind fun members h =>
      yields_pure (holds_struct.mpr h)
  | map key value ih =>
    refine yields_after fun count => ?_
    have hkeys : Yields (runAll (replicate count (readScalar key)))
        fun keys => ∀ k ∈ keys, k.Stores key :=
      (yields_runAll_all fun x hx => eq_of_mem_replicate hx ▸ yields_readScalar key).mono
        fun keys h => h.2
    have hvalues : Yields (runAll (replicate count (readValue value)))
        fun values => ∀ x ∈ values, value.Holds x :=
      (yields_runAll_all fun x hx => eq_of_mem_replicate hx ▸ ih).mono fun values h => h.2
    refine hkeys.bind fun keys hk => yields_after fun _ => hvalues.bind fun values hv =>
      yields_pure ?_
    intro p hp
    exact ⟨hk _ (of_mem_zip hp).1, hv _ (of_mem_zip hp).2⟩

/-- Whatever the constructor returns is an object of the class. -/
theorem construct_holds {bytes : Bytes} {members : List Stored}
    (h : construct cls bytes = .ok members) : cls.Holds members := by
  have hyie : Yields (PositionalReader.make cls.length >>= fun r =>
      decodeFrom r (memberReaders cls) 0 cls.initial) (Forall₂ MemberHolds cls) :=
    yields_after fun r => yields_decodeFrom r 0 (initial_members cls) fun f _ =>
      readValue_holds f.type
  rw [construct, decodeInto, map_eq_ok_iff] at h
  obtain ⟨p, hp, rfl⟩ := h
  exact holds_struct.mpr (hyie bytes p.1 p.2 hp)

/-! ## No object has a null the reader looks past -/

theorem memberValue_honoured {x : Stored}
    (hv : ∀ {x}, f.type.Holds x → NullsHonoured f.type (f.type.value x)) (hx : MemberHolds f x) :
    SlotAllows (f.type.isOptional f.nullable) (NullsHonoured f.type)
      (memberValue f.type f.nullable f.type.value x) := by
  have present : ∀ {x}, f.type.Holds x → SlotAllows (f.type.isOptional f.nullable)
      (NullsHonoured f.type) (f.type.value x) := by
    intro x hx
    rw [SlotAllows, (value_hasType f.type hx).isNull_eq]
    exact hv hx
  rcases hx with ⟨hopt, rfl⟩ | hx
  · cases hn : f.nullable with
    | true =>
      rw [hn] at hopt
      exact hopt
    | false =>
      have h := present (fallback_holds f.type)
      rwa [hn] at h
  · rw [memberValue_of_holds hx]
    exact present hx

theorem value_honoured (l : Layout) {x : Stored} (hx : l.Holds x) :
    NullsHonoured l (l.value x) := by
  induction l generalizing x with
  | scalar _ => simp [NullsHonoured]
  | list e ih =>
    cases x <;> simp only [Layout.Holds] at hx
    intro v hv
    obtain ⟨y, hy, rfl⟩ := mem_map.mp hv
    exact ⟨(value_hasType e (hx y hy)).isNull_eq, ih (hx y hy)⟩
  | struct _ ih =>
    cases x <;> try simp only [Layout.Holds] at hx
    rename_i members
    rw [value_struct, rowValues_eq]
    exact rowHonoured_iff.mpr (forall₂_zipWith (holds_struct.mp hx)
      fun f hf x hx => memberValue_honoured (ih f hf) hx)
  | map _ value ih =>
    cases x <;> simp only [Layout.Holds] at hx
    intro v hv
    obtain ⟨p, hp, rfl⟩ := mem_map.mp hv
    exact ⟨(value_hasType value (hx p hp).2).isNull_eq, ih (hx p hp).2⟩

theorem rowValues_honoured {members : List Stored} (hx : cls.Holds members) :
    RowHonoured cls (cls.rowValues members) := by
  have h := value_honoured (.struct cls) hx
  rwa [value_struct] at h

/-! ## What the reader reads back -/

/-- The scalar that stands for a leaf value. -/
def CppScalar.ofValue : Value → CppScalar
  | .bool b => .bool b
  | .fixed v => .word v.repr
  | .binary _ data => .string data
  | _ => .bool false

def storedMember (stored : Value → Stored) (v : Value) : Stored :=
  if v.isNull then .unset else stored v

mutual

/-- The element that stands for a value. -/
def Layout.stored : Layout → Value → Stored
  | .scalar _, v => .scalar (ofValue v)
  | .list e, .list vs => .vector (vs.map e.stored)
  | .struct fields, .struct vs =>
    .object (List.zipWith (fun f v => f v) (storedMembers fields) vs)
  | .map _ value, .map ks vs =>
    .pairs ((ks.map ofValue).zip (vs.map value.stored))
  | _, _ => .unset

def storedMembers : RowClass → List (Value → Stored)
  | [] => []
  | ⟨_, l, _⟩ :: fs => storedMember l.stored :: storedMembers fs

end

/-- A value the reader can give back: of the layout's type, short enough for the wire,
and null only where the schema allows it and the reader asks. -/
structure Readable (l : Layout) (v : Value) : Prop where
  hasType : HasType l.dataType v
  encodable : v.Encodable
  allowed : NullsAllowed l.dataType v
  honoured : NullsHonoured l v

/-- What the recursion provides about values of a layout: the reader consumes exactly
their wire, and what it builds holds them. -/
def ReadOk (l : Layout) : Prop :=
  ∀ v, Readable l v → Reads (readValue l) (wire l.dataType v) (l.stored v) ∧
    l.value (l.stored v) = v

theorem reads_readScalar {kind : LogicalKind} (hty : HasType (emitScalarType kind) v)
    (henc : v.Encodable) :
    Reads (readScalar kind) (wire (emitScalarType kind) v) (ofValue v) ∧
      (ofValue v).value kind = v := by
  cases hk : kind.word? with
  | some t =>
    rw [emitScalarType_word hk] at hty ⊢
    cases v <;> simp only [HasType] at hty
    rename_i v
    subst hty
    refine ⟨?_, by simp [value, ofValue, hk, v.ofBytes_self]⟩
    rw [readScalar_word hk]
    exact (reads_readBytes v.repr v.size_eq).bind_pure
  | none =>
    have string : ∀ {t : VarType} {data : Bytes}, HasType (.var t) v → v = .binary t data →
        Reads (readString >>= fun data => pure (string data))
          (wire (.var t) v) (ofValue v) := by
      rintro t data hty rfl
      exact (reads_readString henc).bind_pure
    cases kind with
    | bool =>
      cases v <;> simp only [emitScalarType, HasType] at hty
      rename_i b
      refine ⟨?_, rfl⟩
      refine (reads_readBytes [if b then 1 else 0] rfl).bind_pure.before ?_
      cases b <;> exact reads_pure _
    | utf8 =>
      cases v <;> simp only [emitScalarType, HasType] at hty
      subst hty
      exact ⟨string rfl rfl, rfl⟩
    | binary =>
      cases v <;> simp only [emitScalarType, HasType] at hty
      subst hty
      exact ⟨string rfl rfl, rfl⟩
    | _ => cases hk

/-- A member as the reader finds it: the slot of a value that may be null where the
schema allows it and the reader asks. -/
def SlotReadable (f : FieldOf Layout) (v : Value) : Prop :=
  (v = .null ∧ f.nullable = true ∧ f.type.isOptional f.nullable = true) ∨ Readable f.type v

theorem initial_of_isOptional {l : Layout} {nullable : Bool} (h : l.isOptional nullable = true) :
    (if l.optionalShape then Stored.unset else l.initial nullable) = .unset := by
  cases l with
  | map _ _ => cases h
  | list e => simp [Layout.optionalShape, Layout.initial, h]
  | _ => rfl

theorem reads_readMember (hread : ReadOk f.type)
    (hv : SlotReadable f v) {r : PositionalReader} {k : Nat} (hnull : r.isNull k = .ok v.isNull) :
    Reads (readMember f.type f.nullable (readValue f.type) r k (f.type.initial f.nullable))
      ((slotOut (wire f.type.dataType) v).getD []) (storedMember f.type.stored v) := by
  unfold readMember
  rw [hnull, lift_ok]
  rcases hv with ⟨rfl, hn, hopt⟩ | hv
  · rw [if_pos (by rw [hn] at hopt ⊢; exact hopt)]
    refine (reads_pure _).after ?_
    rw [if_pos (show Value.null.isNull = true from rfl), initial_of_isOptional hopt]
    exact reads_pure _
  · have hpre := hv.hasType.isNull_eq
    rw [hpre, slotOut_of_not_null hpre, Option.getD_some, storedMember, hpre]
    split
    · exact (reads_pure _).after (hread v hv).1
    · exact (hread v hv).1

/-- Member after member, with bit `k + j` of the bitfield saying whether value `j` is null. -/
theorem reads_decodeFrom {n : Nat} {bitfield : Bytes} :
    ∀ {fields : RowClass} {vs : List Value} {k : Nat},
    Forall₂ SlotReadable fields vs → (∀ f ∈ fields, ReadOk f.type) → k + fields.length ≤ n →
    (∀ j v, vs[j]? = some v → readBit bitfield (k + j) = v.isNull) →
    Reads (decodeFrom ⟨n, bitfield⟩ (memberReaders fields) k (RowClass.initial fields))
      ((zipWith slotOut (wires (schemaOf fields)) vs).flatMap fun out => out.getD [])
      (zipWith (fun f v => f v) (storedMembers fields) vs)
  | [], [], _, _, _, _, _ => reads_pure []
  | f :: fields, v :: vs, k, .cons hv hvs, hread, hn, hbits => by
    have hrest : Reads (decodeFrom ⟨n, bitfield⟩ (memberReaders fields) (k + 1)
        (RowClass.initial fields)) _ _ :=
      reads_decodeFrom hvs (fun g hg => hread g (mem_cons_of_mem f hg))
        (by rw [length_cons] at hn; omega)
        fun j u hu => by rw [Nat.add_assoc, Nat.add_comm 1]; exact hbits (j + 1) u hu
    have hnull : isNull ⟨n, bitfield⟩ k = .ok v.isNull := by
      rw [isNull_ok (by rw [length_cons] at hn; omega)]
      exact congrArg Except.ok (hbits 0 v rfl)
    exact (reads_readMember (hread f mem_cons_self) hv hnull).bind hrest.bind_pure

theorem memberValue_stored (hread : ReadOk f.type) (hv : SlotReadable f v) :
    memberValue f.type f.nullable f.type.value (storedMember f.type.stored v) = v := by
  rcases hv with ⟨rfl, hn, -⟩ | hv
  · simp [storedMember, Value.isNull, memberValue, hn]
  · have hvalue := (hread v hv).2
    have hpre := hv.hasType.isNull_eq
    rw [storedMember, hpre, if_neg Bool.false_ne_true]
    cases hs : f.type.stored v with
    | unset =>
      -- nothing is a value of the type that an empty optional stands for
      rw [hs] at hvalue
      have hnull : f.type.value .unset = .null := by cases f.type <;> rfl
      rw [hnull] at hvalue
      rw [← hvalue] at hpre
      cases hpre
    | _ => rw [hs] at hvalue; exact hvalue

theorem rowValues_stored : ∀ {fields : RowClass} {vs : List Value},
    Forall₂ SlotReadable fields vs → (∀ f ∈ fields, ReadOk f.type) →
    fields.rowValues (zipWith (fun f v => f v) (storedMembers fields) vs) = vs
  | [], [], _, _ => rfl
  | f :: fields, v :: vs, .cons hv hvs, hread => by
    have hrest := rowValues_stored hvs fun g hg => hread g (mem_cons_of_mem f hg)
    have hhead := memberValue_stored (hread f mem_cons_self) hv
    exact congrArg₂ List.cons hhead hrest

/-- A struct's worth of members, after its bitfield. -/
theorem reads_members {fields : RowClass} {read : Read PositionalReader}
    (hopen : Opens read fields.length)
    (hvs : Forall₂ SlotReadable fields vs) (hread : ∀ f ∈ fields, ReadOk f.type) :
    Reads (read >>= fun r => decodeFrom r (memberReaders fields) 0 (RowClass.initial fields))
      (wireRow (schemaOf fields) vs)
      (zipWith (fun f v => f v) (storedMembers fields) vs) := by
  have hlen := hvs.length_eq
  rw [wireRow, slots, slotOuts_isNone (by rw [schemaOf_eq_map, length_map]; exact hlen)]
  refine (hopen _ (by simp [hlen])).bind (reads_decodeFrom hvs hread (by simp) fun j v hv => ?_)
  rw [readBit_packBits, Nat.zero_add, getD_eq_getElem?_getD, getElem?_map, hv]
  rfl

/-- Values of one layout, none of them null, read one after the other. -/
theorem reads_values {e : Layout} (hread : ReadOk e) (hvs : ∀ v ∈ vs, Readable e v) :
    Reads (runAll (replicate vs.length (readValue e))) (vs.flatMap (wire e.dataType))
      (vs.map e.stored) := by
  have h := reads_runAll (x := fun _ => readValue e) fun v hv => (hread v (hvs v hv)).1
  rwa [map_const'] at h

theorem values_stored {e : Layout} (hread : ReadOk e)
    (hvs : ∀ v ∈ vs, Readable e v) : (vs.map e.stored).map e.value = vs := by
  rw [List.map_map]
  exact (map_congr_left fun v hv => (hread v (hvs v hv)).2).trans (map_id' vs)

/-- The elements of a list whose nulls are all looked at: there are none. -/
theorem readable_items {e : Layout} (hty : ∀ v ∈ vs, Slot (HasType e.dataType) v)
    (henc : ∀ v ∈ vs, v.Encodable) (hall : ∀ v ∈ vs, SlotAllows true (NullsAllowed e.dataType) v)
    (hhon : ∀ v ∈ vs, v.isNull = false ∧ NullsHonoured e v) : ∀ v ∈ vs, Readable e v := by
  intro v hv
  obtain ⟨hpre, hnulls⟩ := hhon v hv
  refine ⟨?_, henc v hv, ?_, hnulls⟩
  · rcases hty v hv with rfl | hty
    · cases hpre
    · exact hty
  · have h := hall v hv
    rwa [SlotAllows, hpre, if_neg Bool.false_ne_true] at h

theorem slotReadable (hok : SlotOk f.type.dataType v)
    (hall : SlotAllows f.nullable (NullsAllowed f.type.dataType) v)
    (hhon : SlotAllows (f.type.isOptional f.nullable) (NullsHonoured f.type) v) :
    SlotReadable f v := by
  unfold SlotAllows at hall hhon
  rcases hok with ⟨rfl | hty, henc⟩
  · exact .inl ⟨rfl, hall, hhon⟩
  · rw [hty.isNull_eq, if_neg Bool.false_ne_true] at hall hhon
    exact .inr ⟨hty, henc, hall, hhon⟩

/-- The members of a struct whose nulls are allowed and looked at. -/
theorem readable_members {fields : RowClass}
    (hok : Forall₂ (fun f v => SlotOk f.type v) (schemaOf fields) vs)
    (hall : RowAllowed (schemaOf fields) vs) (hhon : RowHonoured fields vs) :
    Forall₂ SlotReadable fields vs := by
  rw [schemaOf_eq_map, forall₂_map_left_iff] at hok
  rw [RowAllowed, schemaOf_eq_map, forall₂_map_left_iff] at hall
  rw [rowHonoured_iff] at hhon
  have hprs := Forall₂.mp (fun f v hok hall => And.intro hok hall) hok hall
  exact Forall₂.mp (fun f v h hhon => slotReadable h.1 h.2 hhon) hprs hhon

/-- **The reader gives back every value whose nulls it looks at.** -/
theorem readValue_reads (l : Layout) : ReadOk l := by
  induction l with
  | scalar _ =>
    intro v hv
    obtain ⟨hreads, hvalue⟩ := reads_readScalar hv.hasType hv.encodable
    exact ⟨hreads.bind_pure, hvalue⟩
  | list e ih =>
    rintro v ⟨hty, henc, hall, hhon⟩
    cases v <;> simp only [Layout.dataType, HasType] at hty
    rename_i vs
    rw [Value.Encodable, Value.allEncodable_iff] at henc
    have hvs := readable_items hty henc.2 hall hhon
    refine ⟨?_, congrArg Value.list (values_stored ih hvs)⟩
    rw [Layout.dataType, wire, slots_present fun v hv => (hhon v hv).1, ← append_assoc]
    refine (reads_readListHeader henc.1 (by simp)).bind ?_
    exact (reads_values ih hvs).bind_pure
  | struct fields ih =>
    rintro v ⟨hty, henc, hall, hhon⟩
    cases v <;> simp only [Layout.dataType, HasType] at hty
    rename_i vs
    rw [Value.Encodable, Value.allEncodable_iff] at henc
    rw [hasTypes_eq_map, forall₂_map_left_iff] at hty
    rw [Layout.dataType, NullsAllowed, fieldsAllow_eq_map, forall₂_map_left_iff] at hall
    have hvs := readable_members (forall₂_and_right hty henc) hall hhon
    refine ⟨?_, by rw [Layout.stored, value_struct, rowValues_stored hvs ih]⟩
    have hmbs := reads_members (opens_readStruct fields.length) hvs ih
    have hobj := hmbs.bind_pure (f := Stored.object)
    rwa [bind_bind] at hobj
  | map key value ih =>
    rintro v ⟨hty, henc, hall, hhon⟩
    cases v <;> simp only [Layout.dataType, HasType] at hty
    rename_i ks vs
    obtain ⟨hlen, hkty, hvty⟩ := hty
    rw [Value.Encodable, Value.allEncodable_iff, Value.allEncodable_iff] at henc
    obtain ⟨hcnt, hkn, hke, hve⟩ := henc
    have hvs := readable_items hvty hve hall.2 hhon
    have hks : ∀ k ∈ ks, HasType (emitScalarType key) k := by
      intro k hk
      rcases hkty k hk with rfl | hkty
      · cases hkn _ hk
      · exact hkty
    have hkread : Reads (runAll (replicate ks.length (readScalar key)))
        (ks.flatMap (wire (emitScalarType key))) (ks.map ofValue) := by
      have h := reads_runAll (x := fun _ => readScalar key)
        fun k hk => (reads_readScalar (hks k hk) (hke k hk)).1
      rwa [map_const'] at h
    have hvread := reads_values ih hvs
    rw [← hlen] at hvread
    refine ⟨?_, ?_⟩
    · rw [Layout.dataType, wire, slots_present fun v hv => (hhon v hv).1]
      have hle := length_le_flatMap_wire (t := emitScalarType key) (by cases key <;> rfl) hks
      refine reads_readMapCount_bind hcnt (by rw [length_append]; omega)
        (hkread.bind ?_)
      exact (reads_readBytes _ (by simp [hlen])).bind hvread.bind_pure
    · have hfst : ((ks.map ofValue).zip (vs.map value.stored)).map Prod.fst =
          ks.map ofValue := map_fst_zip (by simp [hlen])
      have hsnd : ((ks.map ofValue).zip (vs.map value.stored)).map Prod.snd =
          vs.map value.stored := map_snd_zip (by simp [hlen])
      have hkeys : (ks.map CppScalar.ofValue).map (CppScalar.value key) = ks := by
        rw [List.map_map]
        exact (map_congr_left fun k hk => (reads_readScalar (hks k hk) (hke k hk)).2).trans
          (map_id' ks)
      have hvalues := values_stored ih hvs
      rw [← hfst, List.map_map] at hkeys
      rw [← hsnd, List.map_map] at hvalues
      exact congrArg₂ Value.map hkeys hvalues

/-- The constructor gives back a row whose nulls it looks at. -/
theorem construct_wireRow {row : Row}
    (hok : Forall₂ (fun f v => SlotOk f.type v) (schemaOf cls) row)
    (hall : RowAllowed (schemaOf cls) row) (hhon : RowHonoured cls row) :
    ∃ members, construct cls (wireRow (schemaOf cls) row) = .ok members ∧
      cls.rowValues members = row := by
  have hvs := readable_members hok hall hhon
  have hread : ∀ f ∈ cls, ReadOk f.type := fun f _ => readValue_reads f.type
  have hmbs := reads_members (opens_make cls.length) hvs hread []
  rw [append_nil] at hmbs
  refine ⟨_, ?_, rowValues_stored hvs hread⟩
  rw [construct, decodeInto, hmbs]
  rfl

/-! ## Writer and reader of one class -/

theorem value_slotAllows {l : Layout} {x : Stored} {nullable : Bool} (hx : l.Holds x)
    (h : NullsAllowed l.dataType (l.value x)) :
    SlotAllows nullable (NullsAllowed l.dataType) (l.value x) := by
  rw [SlotAllows, (value_hasType l hx).isNull_eq]
  exact h

theorem memberValue_allowed {x : Stored}
    (hv : ∀ {x}, f.type.Holds x → NullsAllowed f.type.dataType (f.type.value x))
    (hx : MemberHolds f x) : SlotAllows f.nullable (NullsAllowed f.type.dataType)
      (memberValue f.type f.nullable f.type.value x) := by
  rcases hx with ⟨-, rfl⟩ | hx
  · cases f.nullable with
    | true => exact rfl
    | false => exact value_slotAllows (fallback_holds f.type) (hv (fallback_holds f.type))
  · rw [memberValue_of_holds hx]
    exact value_slotAllows hx (hv hx)

/-- An object is null only where its schema allows it: unset members stand for their defaults. -/
theorem value_allowed (l : Layout) {x : Stored} (hx : l.Holds x) :
    NullsAllowed l.dataType (l.value x) := by
  induction l generalizing x with
  | scalar kind =>
    cases kind <;> simp [Layout.dataType, emitScalarType, NullsAllowed]
  | list e ih =>
    cases x <;> simp only [Layout.Holds] at hx
    intro v hv
    obtain ⟨y, hy, rfl⟩ := mem_map.mp hv
    exact value_slotAllows (hx y hy) (ih (hx y hy))
  | struct fields ih =>
    cases x <;> try simp only [Layout.Holds] at hx
    rw [value_struct, rowValues_eq, Layout.dataType, NullsAllowed, fieldsAllow_eq_map,
      schemaOf_eq_map, map_map, forall₂_map_left_iff]
    exact forall₂_zipWith (holds_struct.mp hx) fun f hf x hx => memberValue_allowed (ih f hf) hx
  | map key value ih =>
    cases x <;> simp only [Layout.Holds] at hx
    refine ⟨?_, ?_⟩
    · intro k hk
      obtain ⟨p, hp, rfl⟩ := mem_map.mp hk
      rw [SlotAllows, (scalarValue_hasType (hx p hp).1).isNull_eq]
      cases key <;> simp [emitScalarType, NullsAllowed]
    · intro v hv
      obtain ⟨p, hp, rfl⟩ := mem_map.mp hv
      exact value_slotAllows (hx p hp).2 (ih (hx p hp).2)

/-- **The generated classes understand each other without Arrow.** What `Encode()` makes of any
object of any class the generator emits, its strings, lists and maps shorter than 2^32, the
constructor turns into an object that stands for the same values. -/
theorem construct_encode {members : List Stored} (hc : membersCompile cls = true)
    (hx : cls.Holds members) (henc : ∀ v ∈ cls.rowValues members, v.Encodable) :
    ∃ bytes copy, encode cls members = .ok bytes ∧ construct cls bytes = .ok copy ∧
      cls.Holds copy ∧ cls.rowValues copy = cls.rowValues members := by
  have hall : RowAllowed (schemaOf cls) (cls.rowValues members) := by
    have h := value_allowed (.struct cls) hx
    rwa [value_struct, Layout.dataType, NullsAllowed, fieldsAllow_eq_map, forall₂_map_left_iff] at h
  obtain ⟨copy, hcopy, hsame⟩ :=
    construct_wireRow (forall₂_and_right (rowValues_slots hx) henc) hall
    (rowValues_honoured hx)
  exact ⟨_, copy, encode_eq_wireRow hc hx henc, hcopy, construct_holds hcopy, hsame⟩

theorem construct_encode_oneStop : ∃ bytes copy, encode routeClass oneStop = .ok bytes ∧
    construct routeClass bytes = .ok copy ∧ routeClass.Holds copy ∧
      routeClass.rowValues copy = routeClass.rowValues oneStop := by
  have hshort : (Value.binary .string [97]).Encodable := show 1 < 2 ^ 32 by decide
  exact construct_encode (by decide) oneStop_holds (Value.allEncodable_iff.mp
    ⟨⟨by decide, ⟨trivial, hshort, trivial⟩, trivial⟩, trivial, trivial⟩)

/-- **Which rows the generated class reads back.** Take any row class the generator
emits, any row that its schema allows, and the bytes `EncodeRow` makes of it. The
object constructed from those bytes holds exactly the row if and only if no list
element, map value, plain list or map in it is null, at any depth. Otherwise the
constructor takes other bytes for the missing value: it never returns the row, so
it returns wrong values unless it runs out of bytes and throws. -/
theorem construct_encodeRow_iff {A : Api} (hA : A.Lawful) {n : Nat} {pool : Pool n} {fuel : Nat}
    {m : Fin n} {cls : RowClass} {schema : Schema} {values : List RowScalar} {bytes : Bytes}
    (hcls : rowClass pool fuel m = .ok cls) (hschema : messageSchema pool fuel m = .ok schema)
    (hv : RowValid schema values) (hall : RowAllowed schema (rowOf schema values))
    (hbytes : encodeRow A schema values = .ok bytes) :
    ((∃ members, construct cls bytes = .ok members ∧
        cls.rowValues members = rowOf schema values) ↔ RowHonoured cls (rowOf schema values)) ∧
    ((∀ members, construct cls bytes = .ok members → cls.rowValues members = rowOf schema values) ↔
      RowHonoured cls (rowOf schema values) ∨ ∃ e, construct cls bytes = .error e) := by
  obtain rfl : schemaOf cls = schema := by
    rw [messageSchema_eq, hcls] at hschema
    exact Except.ok.inj hschema
  have ht := forall_schemaOf (P := fun t => t.supported = true) dataType_supported cls
  have hfit := forall_schemaOf (P := fun t => fixedSizesFit t = true) dataType_fixedSizesFit cls
  obtain ⟨henc, rfl⟩ := (encodeRow_ok_iff hA ht hfit hv).mp hbytes
  have hreads : RowHonoured cls (rowOf (schemaOf cls) values) → _ :=
    construct_wireRow (forall₂_and_right (rowOf_slots ht hv) henc) hall
  -- an object never has a null that the reader would look past
  have honoured : ∀ members, construct cls (wireRow (schemaOf cls) (rowOf (schemaOf cls) values)) =
      .ok members → cls.rowValues members = rowOf (schemaOf cls) values →
      RowHonoured cls (rowOf (schemaOf cls) values) := by
    intro members hmembers hrow
    rw [← hrow]
    exact rowValues_honoured (construct_holds hmembers)
  refine ⟨⟨fun ⟨members, hmembers, hrow⟩ => honoured members hmembers hrow, hreads⟩, ?_, ?_⟩
  · intro hright
    cases hc : construct cls (wireRow (schemaOf cls) (rowOf (schemaOf cls) values)) with
    | error e => exact .inr ⟨e, rfl⟩
    | ok members => exact .inl (honoured members hc (hright members hc))
  · rintro (hhon | ⟨e, he⟩) members hmembers
    · obtain ⟨members', hmembers', hrow⟩ := hreads hhon
      obtain rfl : members' = members := by
        rw [hmembers'] at hmembers
        exact Except.ok.inj hmembers
      exact hrow
    · rw [he] at hmembers
      cases hmembers

/-! ## One message, two rows -/

/-- `message Log { repeated int32 codes = 1; string text = 2; }`. -/
def logPool : Pool 1 := fun _ =>
  ⟨"Log", [⟨"codes", "Log.codes", 1, .int32, .repeated, false, false, none, false⟩,
    ⟨"text", "Log.text", 2, .string, .optional, false, false, none, false⟩], false, false⟩

def logClass : RowClass :=
  [⟨"codes", .list (.scalar .int32), false⟩, ⟨"text", .scalar .utf8, false⟩]

/-- A row of `Log`: one code, null or not, and a text. -/
def logRow (present : Bool) (code text : Bytes) : List RowScalar :=
  [⟨.list .list ⟨"item", .fixed .int32, true⟩, .list (.fixed ⟨1, 0, some [present]⟩ code)⟩,
    ⟨.var .string, .binary .string text⟩]

theorem logRow_valid {present : Bool} {code text : Bytes} (h : code.length = 4) :
    RowValid (schemaOf logClass) (logRow present code text) := by
  have hcode : (0 + 1) * 4 ≤ code.length := by omega
  exact .cons ⟨fun _ => rfl, hcode⟩ (.cons ⟨fun _ => rfl, rfl⟩ .nil)

/-- Any row of one code is allowed: the items of a list may be null. -/
theorem logRow_allowed (present : Bool) (code text : Bytes) :
    RowAllowed (schemaOf logClass) (rowOf (schemaOf logClass) (logRow present code text)) := by
  have hits : ∀ v ∈ [ArrayData.valueAt (.fixed .int32) (.fixed ⟨1, 0, some [present]⟩ code) 0],
      SlotAllows true (NullsAllowed (.fixed .int32)) v := by
    intro v hv
    rw [mem_singleton.mp hv]
    cases present
    · exact rfl
    · exact trivial
  exact .cons hits (.cons trivial .nil)

theorem construct_encodeRow_iff_log :
    ∃ bytes members, encodeRow .permissive (schemaOf logClass) (logRow true [7, 0, 0, 0] [97]) =
        .ok bytes ∧ construct logClass bytes = .ok members ∧
      logClass.rowValues members =
        [.list [.fixed ⟨.int32, [7, 0, 0, 0], rfl⟩], .binary .string [97]] := by
  have hhon : RowHonoured logClass (rowOf (schemaOf logClass) (logRow true [7, 0, 0, 0] [97])) := by
    refine rowHonoured_iff.mpr (.cons ?_ (.cons trivial .nil))
    intro v hv
    rw [mem_singleton.mp hv]
    exact ⟨rfl, trivial⟩
  have hiff := construct_encodeRow_iff Api.permissive_lawful
    (show rowClass logPool 2 0 = .ok logClass from rfl) rfl
    (logRow_valid rfl) (logRow_allowed true [7, 0, 0, 0] [97]) rfl
  obtain ⟨members, hmembers, hrow⟩ := hiff.1.mpr hhon
  exact ⟨_, members, rfl, hmembers, hrow⟩

/-- A null code in front of a text of four zero bytes, which the schema allows. The
reader takes the text's length for the code and the text itself for a length of zero. -/
theorem construct_misreads_null : rowClass logPool 2 0 = .ok logClass ∧
    messageSchema logPool 2 0 = .ok (schemaOf logClass) ∧
    RowValid (schemaOf logClass) (logRow false [0, 0, 0, 0] [0, 0, 0, 0]) ∧
    RowAllowed (schemaOf logClass)
      (rowOf (schemaOf logClass) (logRow false [0, 0, 0, 0] [0, 0, 0, 0])) ∧
    rowOf (schemaOf logClass) (logRow false [0, 0, 0, 0] [0, 0, 0, 0]) =
      [.list [.null], .binary .string [0, 0, 0, 0]] ∧
    ∃ bytes members,
      encodeRow .permissive (schemaOf logClass) (logRow false [0, 0, 0, 0] [0, 0, 0, 0]) =
        .ok bytes ∧ construct logClass bytes = .ok members ∧
      logClass.rowValues members =
        [.list [.fixed ⟨.int32, [4, 0, 0, 0], rfl⟩], .binary .string []] := by
  exact ⟨rfl, rfl, logRow_valid rfl, logRow_allowed false [0, 0, 0, 0] [0, 0, 0, 0], rfl, _, _, rfl,
    rfl, rfl⟩

/-! ## Decoding in place -/

/-- What a member of a class that compiles held before makes no difference. -/
theorem readMember_old (hf : f.type.optionalShape = true ∨ f.type.isOptional f.nullable = false)
    (read : Read Stored) (r : PositionalReader) (k : Nat) (old new : Stored) :
    readMember f.type f.nullable read r k old = readMember f.type f.nullable read r k new := by
  unfold readMember
  rcases hf with hshp | hopt
  · rw [hshp]
    rfl
  · rw [hopt, Bool.and_false]
    rfl

theorem decodeFrom_old (r : PositionalReader) : ∀ {fields : RowClass} {olds news : List Stored}
    (k : Nat), membersCompile fields = true → Forall₂ MemberHolds fields olds →
    Forall₂ MemberHolds fields news →
    decodeFrom r (memberReaders fields) k olds = decodeFrom r (memberReaders fields) k news
  | [], [], [], _, _, _, _ => rfl
  | f :: fields, old :: olds, new :: news, k, hc, .cons _ holds, .cons _ hnews => by
    have hcom := membersCompile_iff.mp hc
    have hrest := decodeFrom_old r (k + 1)
      (membersCompile_iff.mpr fun g hg => hcom g (mem_cons_of_mem f hg)) holds hnews
    rw [memberReaders_eq_map] at hrest ⊢
    rw [map_cons, decodeFrom, decodeFrom, hrest,
      readMember_old (hcom f mem_cons_self).1 (readValue f.type) r k old new]

/-- **Decoding in place** does what constructing from the buffer does, whatever the object held
before, for every class that compiles. -/
theorem decodeInto_eq_construct {cls : RowClass} (hc : membersCompile cls = true)
    {olds : List Stored} (holds : cls.Holds olds) (bytes : Bytes) :
    decodeInto cls olds bytes = construct cls bytes := by
  have hsame : ∀ r, decodeFrom r (memberReaders cls) 0 olds =
      decodeFrom r (memberReaders cls) 0 cls.initial :=
    fun r => decodeFrom_old r 0 hc (holds_struct.mp holds) (initial_members cls)
  rw [construct, decodeInto, decodeInto]
  simp only [hsame]

/-- A route of one stop, read over by a buffer that has no stop and says nothing of `open`. -/
theorem decodeInto_eq_construct_oneStop :
    decodeInto routeClass oneStop [2, 0, 0, 0, 0] = .ok [.vector [], .unset] :=
  decodeInto_eq_construct rfl oneStop_holds [2, 0, 0, 0, 0]

/-- `message Grid { optional Rows rows = 1; }`, with a flattened `Rows { repeated Cells }` and a
flattened `Cells { repeated int32 }`. -/
def gridPool : Pool 3
  | 0 => ⟨"Cells", [⟨"cell", "Cells.cell", 1, .int32, .repeated, false, false, none, false⟩],
      true, false⟩
  | 1 => ⟨"Rows", [⟨"row", "Rows.row", 1, .message 0, .repeated, false, false, none, false⟩],
      true, false⟩
  | 2 => ⟨"Grid", [⟨"rows", "Grid.rows", 1, .message 1, .optional, true, false, none, false⟩],
      false, false⟩

/-- One empty row, read over by a buffer without rows, stays. But for `rows` to be null it is a
`std::optional`, and the writer's loop over it does not compile. -/
theorem decodeInto_keeps_rows : ∃ cls, rowClass gridPool 3 2 = .ok cls ∧
    membersCompile cls = false ∧ cls.Holds [.vector [.vector []]] ∧
    decodeInto cls [.vector [.vector []]] [1] = .ok [.vector [.vector []]] ∧
    construct cls [1] = .ok [.unset] := by
  refine ⟨[⟨"rows", .list (.list (.scalar .int32)), true⟩], rfl, rfl, ?_, rfl, rfl⟩
  exact holds_struct.mpr (.cons (.inr (by simp [Layout.Holds])) .nil)

end Fletcher.Protoc
