import Fletcher.Lib.Bytes
import Mathlib.Data.List.Forall2

/-!
# Arrow types and logical values

The columnar types the bridge knows about, as the tree `arrow::DataType` is, and
the logical values an array slot or a scalar stands for. A logical value forgets
how it is stored: a window into a sliced list array and a freshly built one that
hold the same elements are the same `Value`.

Fixed-width leaves carry their object representation. The invariant that the
representation has the width of the type travels with the leaf (`FixedValue`),
so no later statement has to assume it.
-/

namespace Fletcher.Arrow

open Lib List

variable {code : UInt8} {v : Value} {t : DataType}

inductive TimeUnit where
  | second | milli | micro | nano
  deriving DecidableEq, Repr

/-- The types whose wire payload is a fixed number of bytes, `bool` excepted:
Arrow packs booleans into bits, so they are a layout of their own. -/
inductive FixedType where
  | int8 | int16 | int32 | int64
  | uint8 | uint16 | uint32 | uint64
  | halfFloat | float | double
  | date32 | date64
  | time32 (unit : TimeUnit)
  | time64 (unit : TimeUnit)
  | timestamp (unit : TimeUnit) (timezone : String)
  | duration (unit : TimeUnit)
  | intervalMonths | intervalDayTime | intervalMonthDayNano
  | decimal128 (precision scale : Nat)
  | decimal256 (precision scale : Nat)
  | fixedSizeBinary (byteWidth : Nat)
  deriving DecidableEq, Repr

/-- The widths of the object's members, in order. Only the two multi-field
intervals have more than one. -/
def FixedType.members : FixedType → List Nat
  | .int8 | .uint8 => [1]
  | .int16 | .uint16 | .halfFloat => [2]
  | .int32 | .uint32 | .float | .date32 | .time32 _ | .intervalMonths => [4]
  | .int64 | .uint64 | .double | .date64 | .time64 _ | .timestamp _ _ | .duration _ => [8]
  | .intervalDayTime => [4, 4]
  | .intervalMonthDayNano => [4, 4, 8]
  | .decimal128 _ _ => [16]
  | .decimal256 _ _ => [32]
  | .fixedSizeBinary w => [w]

/-- The wire width of a value of the type. -/
def FixedType.width (t : FixedType) : Nat := t.members.sum

/-- The variable-length layouts. All six look the same on the wire. -/
inductive VarType where
  | string | binary | largeString | largeBinary | stringView | binaryView
  deriving DecidableEq, Repr

/-- `LIST` and `LARGE_LIST` differ only in the width of Arrow's own offsets. -/
inductive ListKind where
  | list | largeList
  deriving DecidableEq, Repr

inductive UnionMode where
  | sparse | dense
  deriving DecidableEq, Repr

/-- A named, typed, possibly nullable slot of a composite. -/
structure FieldOf (T : Type) where
  name : String
  type : T
  nullable : Bool
  deriving Repr

/-- `arrow::DataType`. A type the bridge has no layout for is kept by its name. -/
inductive DataType where
  | bool
  | fixed (t : FixedType)
  | var (t : VarType)
  | struct (fields : List (FieldOf DataType))
  | list (kind : ListKind) (item : FieldOf DataType)
  | fixedSizeList (item : FieldOf DataType) (size : Nat)
  | map (key item : FieldOf DataType) (keysSorted : Bool)
  | union (mode : UnionMode) (fields : List (FieldOf DataType)) (codes : List UInt8)
  | dictionary (index : FixedType) (value : DataType) (ordered : Bool)
  | unsupported (name : String)
  deriving Repr

abbrev Field := FieldOf DataType

/-- A row schema: the ordered top-level fields. -/
abbrev Schema := List Field

/-- Induction that hands every composite its children's hypotheses. -/
@[elab_as_elim, induction_eliminator]
theorem DataType.induction {P : DataType → Prop} (bool : P .bool) (fixed : ∀ t, P (.fixed t))
    (var : ∀ t, P (.var t)) (struct : ∀ fields, (∀ f ∈ fields, P f.type) → P (.struct fields))
    (list : ∀ kind (item : Field), P item.type → P (.list kind item))
    (fixedSizeList : ∀ (item : Field) size, P item.type → P (.fixedSizeList item size))
    (map : ∀ (key item : Field) sorted, P key.type → P item.type → P (.map key item sorted))
    (union : ∀ mode fields codes, (∀ f ∈ fields, P f.type) → P (.union mode fields codes))
    (dictionary : ∀ index value ordered, P value → P (.dictionary index value ordered))
    (unsupported : ∀ name, P (.unsupported name)) (t : DataType) : P t := by
  refine @DataType.rec P (fun fs => ∀ f ∈ fs, P f.type) (fun f => P f.type) bool fixed var
    struct list fixedSizeList map union dictionary unsupported (by simp) ?_ (fun _ _ _ h => h) t
  intro f fs hf hfs g hg
  rcases mem_cons.mp hg with rfl | hg
  · exact hf
  · exact hfs g hg

/-! ## Union type codes -/

/-- The child a type code selects, scanning the declared codes from child `k` on.
A later child with the same code overrides an earlier one, as filling
`UnionType::child_ids()` in order does. -/
def childIdFrom (code : UInt8) : List UInt8 → Nat → Option Nat
  | [], _ => none
  | c :: cs, k =>
    match childIdFrom code cs (k + 1) with
    | some j => some j
    | none => if c = code then some k else none

/-- `child_ids()[type_code]`; a code that is negative as an `int8_t` selects nothing. -/
def childId (codes : List UInt8) (code : UInt8) : Option Nat :=
  if 128 ≤ code.toNat then none else childIdFrom code codes 0

theorem childIdFrom_bounds : ∀ {codes : List UInt8} {k j : Nat},
    childIdFrom code codes k = some j → k ≤ j ∧ j < k + codes.length
  | [], _, _, h => absurd h (by simp [childIdFrom])
  | c :: cs, k, j, h => by
    rw [childIdFrom] at h
    split at h
    · rename_i j' hrec
      injection h with h; subst h
      have := childIdFrom_bounds hrec
      rw [length_cons]; omega
    · split at h
      · injection h with h; subst h
        rw [length_cons]; omega
      · exact absurd h (by simp)

theorem mem_of_childIdFrom : ∀ {codes : List UInt8} {k j : Nat},
    childIdFrom code codes k = some j → code ∈ codes
  | [], _, _, h => absurd h (by simp [childIdFrom])
  | c :: cs, k, j, h => by
    rw [childIdFrom] at h
    split at h
    · next hrec => exact mem_cons_of_mem c (mem_of_childIdFrom hrec)
    · split at h
      · next heq => exact heq ▸ mem_cons_self
      · cases h

theorem childId_lt {codes : List UInt8} {k : Nat}
    (h : childId codes code = some k) : k < codes.length := by
  unfold childId at h
  split at h
  · exact absurd h (by simp)
  · have := childIdFrom_bounds h; omega

/-! ## Logical values -/

/-- A fixed-width leaf: its type and its object representation, little-endian. -/
structure FixedValue where
  type : FixedType
  repr : Bytes
  /-- The representation has the width of the type. -/
  size_eq : repr.length = type.width
  deriving DecidableEq

/-- What a slot holds, with the layout forgotten. -/
inductive Value where
  | null
  | bool (b : Bool)
  | fixed (v : FixedValue)
  | binary (t : VarType) (data : Bytes)
  | struct (fields : List Value)
  | list (items : List Value)
  | map (keys items : List Value)
  | union (code : UInt8) (value : Value)

def Value.isNull : Value → Bool
  | .null => true
  | _ => false

theorem Value.isNull_iff : v.isNull = true ↔ v = .null := by
  cases v <;> simp [Value.isNull]

/-- A union slot holding `v`. A union has no null of its own: when its active
child is null, so is it, and the code is not part of the value. -/
def Value.underCode (code : UInt8) : Value → Value
  | .null => .null
  | v => .union code v

theorem Value.underCode_isNull (code : UInt8) (v : Value) :
    (Value.underCode code v).isNull = v.isNull := by cases v <;> rfl

theorem Value.underCode_of_not_null (h : v.isNull = false) :
    Value.underCode code v = .union code v := by
  cases v with
  | null => cases h
  | _ => rfl

/-- A row: one value per top-level field. -/
abbrev Row := List Value

/-! ## Which values belong to which types -/

/-- A slot may be null; otherwise it holds what the type says. -/
def Slot (p : Value → Prop) (v : Value) : Prop := v = .null ∨ p v

mutual

/-- A non-null value of the type. -/
def HasType : DataType → Value → Prop
  | .bool, .bool _ => True
  | .fixed t, .fixed v => v.type = t
  | .var t, .binary t' _ => t' = t
  | .struct fields, .struct vs => List.Forall₂ Slot (hasTypes fields) vs
  | .list _ ⟨_, t, _⟩, .list vs => ∀ v ∈ vs, Slot (HasType t) v
  | .fixedSizeList ⟨_, t, _⟩ n, .list vs => vs.length = n ∧ ∀ v ∈ vs, Slot (HasType t) v
  | .map ⟨_, kt, _⟩ ⟨_, vt, _⟩ _, .map ks vs =>
    ks.length = vs.length ∧ (∀ k ∈ ks, Slot (HasType kt) k) ∧ ∀ v ∈ vs, Slot (HasType vt) v
  | .union _ fields codes, .union code v =>
    ∃ k, childId codes code = some k ∧ ∃ p, (hasTypes fields)[k]? = some p ∧ p v
  | .dictionary _ t _, v => HasType t v
  | _, _ => False

/-- The membership test of each field's type. -/
def hasTypes : List Field → List (Value → Prop)
  | [] => []
  | ⟨_, t, _⟩ :: fs => HasType t :: hasTypes fs

end

theorem hasTypes_eq_map : ∀ fields, hasTypes fields = fields.map (fun f => HasType f.type)
  | [] => rfl
  | ⟨_, t, _⟩ :: fs => by rw [hasTypes, hasTypes_eq_map fs]; rfl

theorem not_hasType_null (t : DataType) : ¬ HasType t .null := by
  induction t with
  | dictionary _ _ _ _ => rwa [HasType]
  | _ => simp [HasType]

theorem HasType.isNull_eq (h : HasType t v) : v.isNull = false := by
  cases v with
  | null => exact absurd h (not_hasType_null t)
  | _ => rfl

mutual

/-- What the wire can carry: every count and length fits its 32-bit field, and no
map key is null. -/
def Value.Encodable : Value → Prop
  | .null | .bool _ | .fixed _ => True
  | .binary _ data => data.length < 2 ^ 32
  | .struct vs => Value.AllEncodable vs
  | .list vs => vs.length < 2 ^ 32 ∧ Value.AllEncodable vs
  | .map ks vs =>
    ks.length < 2 ^ 32 ∧ (∀ k ∈ ks, k.isNull = false) ∧ Value.AllEncodable ks ∧
      Value.AllEncodable vs
  | .union _ v => v.Encodable

def Value.AllEncodable : List Value → Prop
  | [] => True
  | v :: vs => v.Encodable ∧ Value.AllEncodable vs

end

theorem Value.allEncodable_iff : ∀ {vs : List Value}, Value.AllEncodable vs ↔ ∀ v ∈ vs, v.Encodable
  | [] => by simp [Value.AllEncodable]
  | v :: vs => by simp [Value.AllEncodable, @Value.allEncodable_iff vs]

/-! ## Which nulls a schema allows -/

/-- A slot of a field: null only where the field is nullable. -/
def SlotAllows (nullable : Bool) (p : Value → Prop) (v : Value) : Prop :=
  if v.isNull then nullable = true else p v

mutual

/-- No null inside the value but where the type marks the field, the list item or the
map value nullable. -/
def NullsAllowed : DataType → Value → Prop
  | .struct fields, .struct vs => List.Forall₂ (fun p v => p v) (fieldsAllow fields) vs
  | .list _ ⟨_, t, nullable⟩, .list vs => ∀ v ∈ vs, SlotAllows nullable (NullsAllowed t) v
  | .fixedSizeList ⟨_, t, nullable⟩ _, .list vs => ∀ v ∈ vs, SlotAllows nullable (NullsAllowed t) v
  | .map ⟨_, kt, kn⟩ ⟨_, vt, vn⟩ _, .map ks vs =>
    (∀ k ∈ ks, SlotAllows kn (NullsAllowed kt) k) ∧ ∀ v ∈ vs, SlotAllows vn (NullsAllowed vt) v
  | .union _ fields codes, .union code v =>
    ∀ k, childId codes code = some k → ∀ p, (fieldsAllow fields)[k]? = some p → p v
  | .dictionary _ t _, v => NullsAllowed t v
  | _, _ => True

/-- What each field allows. -/
def fieldsAllow : List Field → List (Value → Prop)
  | [] => []
  | ⟨_, t, nullable⟩ :: fs => SlotAllows nullable (NullsAllowed t) :: fieldsAllow fs

end

theorem fieldsAllow_eq_map : ∀ fields, fieldsAllow fields =
    fields.map (fun f => SlotAllows f.nullable (NullsAllowed f.type))
  | [] => rfl
  | ⟨_, _, _⟩ :: fs => by rw [fieldsAllow, fieldsAllow_eq_map fs]; rfl

/-- A row with nulls only where the schema allows them. -/
def RowAllowed (schema : Schema) (row : Row) : Prop :=
  List.Forall₂ (fun f v => SlotAllows f.nullable (NullsAllowed f.type) v) schema row

/-! ## Which types the bridge carries -/

mutual

/-- Built from the layouts the row codec has, dictionaries aside. The number of
type codes of a union is the number of its children, which Arrow enforces. -/
def DataType.supported : DataType → Bool
  | .bool | .fixed _ | .var _ => true
  | .struct fields => fieldsSupported fields
  | .list _ ⟨_, t, _⟩ | .fixedSizeList ⟨_, t, _⟩ _ => t.supported
  | .map ⟨_, kt, _⟩ ⟨_, vt, _⟩ _ => kt.supported && vt.supported
  | .union _ fields codes => codes.length == fields.length && fieldsSupported fields
  | .dictionary _ _ _ | .unsupported _ => false

def fieldsSupported : List Field → Bool
  | [] => true
  | ⟨_, t, _⟩ :: fs => t.supported && fieldsSupported fs

end

theorem fieldsSupported_iff : ∀ {fields : List Field},
    fieldsSupported fields = true ↔ ∀ f ∈ fields, f.type.supported = true
  | [] => by simp [fieldsSupported]
  | ⟨_, t, _⟩ :: fs => by
    simp [fieldsSupported, @fieldsSupported_iff fs]

theorem supported_map {key item : Field} {sorted : Bool} :
    (DataType.map key item sorted).supported = true ↔
      key.type.supported = true ∧ item.type.supported = true := by
  rw [DataType.supported, Bool.and_eq_true]

theorem supported_union {mode : UnionMode} {fields : List Field} {codes : List UInt8} :
    (DataType.union mode fields codes).supported = true ↔
      codes.length = fields.length ∧ ∀ f ∈ fields, f.type.supported = true := by
  rw [DataType.supported, Bool.and_eq_true, beq_iff_eq, fieldsSupported_iff]

/-- Induction over the supported types. -/
@[elab_as_elim]
theorem DataType.supported_rec {P : ∀ t, DataType.supported t = true → Prop} (bool : P .bool rfl)
    (fixed : ∀ t, P (.fixed t) rfl) (var : ∀ t, P (.var t) rfl)
    (struct : ∀ fields ht, (∀ f hf, P (FieldOf.type f) (fieldsSupported_iff.mp ht f hf)) →
      P (.struct fields) ht)
    (list : ∀ kind item ht, P (FieldOf.type item) ht → P (.list kind item) ht)
    (fixedSizeList : ∀ item size ht, P (FieldOf.type item) ht → P (.fixedSizeList item size) ht)
    (map : ∀ key item sorted ht, P (FieldOf.type key) (supported_map.mp ht).1 →
      P (FieldOf.type item) (supported_map.mp ht).2 → P (.map key item sorted) ht)
    (union : ∀ mode fields codes ht, (∀ f hf, P (FieldOf.type f) ((supported_union.mp ht).2 f hf)) →
      P (.union mode fields codes) ht)
    (ht : t.supported = true) : P t ht := by
  induction t with
  | bool => exact bool
  | fixed t => exact fixed t
  | var t => exact var t
  | struct fields ih => exact struct fields ht fun f hf => ih f hf _
  | list kind item ih => exact list kind item ht (ih ht)
  | fixedSizeList item size ih => exact fixedSizeList item size ht (ih ht)
  | map key item sorted ihk ihv => exact map key item sorted ht (ihk _) (ihv _)
  | union mode fields codes ih => exact union mode fields codes ht fun f hf => ih f hf _
  | dictionary _ _ _ _ | unsupported _ => cases ht

/-- The types a dictionary may hold its values in: scalars, half floats excepted. -/
def DataType.dictionaryValue : DataType → Bool
  | .bool | .var _ => true
  | .fixed t => t != .halfFloat
  | _ => false

/-- The type a dictionary's values have; every other type itself. -/
def DataType.element : DataType → DataType
  | .dictionary _ t _ => t.element
  | t => t

mutual

/-- Built from all the layouts the row codec has, dictionaries among them. -/
def DataType.carried : DataType → Bool
  | .bool | .fixed _ | .var _ => true
  | .struct fields => fieldsCarried fields
  | .list _ ⟨_, t, _⟩ | .fixedSizeList ⟨_, t, _⟩ _ => t.carried
  | .map ⟨_, kt, _⟩ ⟨_, vt, _⟩ _ => kt.carried && vt.carried
  | .union _ fields codes => codes.length == fields.length && fieldsCarried fields
  | .dictionary _ t _ => t.dictionaryValue
  | .unsupported _ => false

def fieldsCarried : List Field → Bool
  | [] => true
  | ⟨_, t, _⟩ :: fs => t.carried && fieldsCarried fs

end

theorem fieldsCarried_iff : ∀ {fields : List Field},
    fieldsCarried fields = true ↔ ∀ f ∈ fields, f.type.carried = true
  | [] => by simp [fieldsCarried]
  | ⟨_, t, _⟩ :: fs => by
    simp [fieldsCarried, @fieldsCarried_iff fs]

theorem carried_map {key item : Field} {sorted : Bool} :
    (DataType.map key item sorted).carried = true ↔
      key.type.carried = true ∧ item.type.carried = true := by
  rw [DataType.carried, Bool.and_eq_true]

theorem carried_union {mode : UnionMode} {fields : List Field} {codes : List UInt8} :
    (DataType.union mode fields codes).carried = true ↔
      codes.length = fields.length ∧ ∀ f ∈ fields, f.type.carried = true := by
  rw [DataType.carried, Bool.and_eq_true, beq_iff_eq, fieldsCarried_iff]

theorem DataType.supported_of_dictionaryValue (h : t.dictionaryValue = true) :
    t.supported = true := by
  cases t <;> simp_all [DataType.dictionaryValue, DataType.supported]

theorem DataType.carried_of_supported (ht : t.supported = true) : t.carried = true := by
  induction ht using DataType.supported_rec with
  | bool | fixed _ | var _ => rfl
  | struct fields _ ih => exact fieldsCarried_iff.mpr ih
  | list _ _ _ ih | fixedSizeList _ _ _ ih => exact ih
  | map _ _ _ _ ihk ihv => exact carried_map.mpr ⟨ihk, ihv⟩
  | union _ _ _ ht ih => exact carried_union.mpr ⟨(supported_union.mp ht).1, ih⟩

theorem DataType.carried_of_dictionaryValue (h : t.dictionaryValue = true) : t.carried = true :=
  DataType.carried_of_supported (DataType.supported_of_dictionaryValue h)

/-- Induction over the types that are carried. -/
@[elab_as_elim]
theorem DataType.carried_rec {P : ∀ t, DataType.carried t = true → Prop} (bool : P .bool rfl)
    (fixed : ∀ t, P (.fixed t) rfl) (var : ∀ t, P (.var t) rfl)
    (struct : ∀ fields ht, (∀ f hf, P (FieldOf.type f) (fieldsCarried_iff.mp ht f hf)) →
      P (.struct fields) ht)
    (list : ∀ kind item ht, P (FieldOf.type item) ht → P (.list kind item) ht)
    (fixedSizeList : ∀ item size ht, P (FieldOf.type item) ht → P (.fixedSizeList item size) ht)
    (map : ∀ key item sorted ht, P (FieldOf.type key) (carried_map.mp ht).1 →
      P (FieldOf.type item) (carried_map.mp ht).2 → P (.map key item sorted) ht)
    (union : ∀ mode fields codes ht, (∀ f hf, P (FieldOf.type f) ((carried_union.mp ht).2 f hf)) →
      P (.union mode fields codes) ht)
    (dictionary : ∀ index t ordered ht, P t (carried_of_dictionaryValue ht) →
      P (.dictionary index t ordered) ht)
    (ht : t.carried = true) : P t ht := by
  induction t with
  | bool => exact bool
  | fixed t => exact fixed t
  | var t => exact var t
  | struct fields ih => exact struct fields ht fun f hf => ih f hf _
  | list kind item ih => exact list kind item ht (ih ht)
  | fixedSizeList item size ih => exact fixedSizeList item size ht (ih ht)
  | map key item sorted ihk ihv => exact map key item sorted ht (ihk _) (ihv _)
  | union mode fields codes ih => exact union mode fields codes ht fun f hf => ih f hf _
  | dictionary index t ordered ih => exact dictionary index t ordered ht (ih _)
  | unsupported _ => cases ht

/-- Some non-null value of the type takes no bytes on the wire. -/
def DataType.canEncodeEmpty : DataType → Bool
  | .fixed t => t.width == 0
  | .struct fields => fields.isEmpty
  | .fixedSizeList _ n => n == 0
  | .dictionary _ t _ => t.canEncodeEmpty
  | _ => false

mutual

/-- Every map key type in the tree takes at least one byte per key. -/
def DataType.keysTakeBytes : DataType → Bool
  | .struct fields | .union _ fields _ => fieldsKeysTakeBytes fields
  | .list _ ⟨_, t, _⟩ | .fixedSizeList ⟨_, t, _⟩ _ => t.keysTakeBytes
  | .map ⟨_, kt, _⟩ ⟨_, vt, _⟩ _ => !kt.canEncodeEmpty && kt.keysTakeBytes && vt.keysTakeBytes
  | _ => true

def fieldsKeysTakeBytes : List Field → Bool
  | [] => true
  | ⟨_, t, _⟩ :: fs => t.keysTakeBytes && fieldsKeysTakeBytes fs

end

theorem fieldsKeysTakeBytes_iff : ∀ {fields : List Field},
    fieldsKeysTakeBytes fields = true ↔ ∀ f ∈ fields, f.type.keysTakeBytes = true
  | [] => by simp [fieldsKeysTakeBytes]
  | ⟨_, t, _⟩ :: fs => by
    simp [fieldsKeysTakeBytes, @fieldsKeysTakeBytes_iff fs]

end Fletcher.Arrow
