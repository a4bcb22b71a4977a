import Fletcher.Arrow.DataType

/-!
# Arrow arrays and scalars

The physical side: an array is a window (`offset`, `length`, optional validity
bits) over buffers and child arrays, laid out per type as `arrow::Array` is. The
accessors below are Arrow's, with Arrow's own offset conventions, and each is
used by the encoder at the place the source calls it:

* `field(k)` of a struct or sparse union is windowed to the parent;
* `values()`, `keys()`, `items()` and a dense union's children are not;
* `IsNull` of a union slot is the validity of its active child.

`valueAt` is the logical reading, and `Valid` says the buffers are large enough
and the offsets, codes and indices in range, so that every accessor stays inside
its buffer.
-/

namespace Fletcher.Arrow

open Lib

/-- The part of an array every layout has. -/
structure Slots where
  length : Nat
  offset : Nat
  /-- Absent when every slot is valid. -/
  validity : Option (List Bool)
  deriving DecidableEq, Repr

/-- The validity bit of slot `i`, as a null test. -/
def Slots.isNull (s : Slots) (i : Nat) : Bool :=
  match s.validity with
  | none => false
  | some bits => !bits.getD (s.offset + i) false

/-- `arrow::Array`, one constructor per layout. -/
inductive ArrayData where
  | bool (s : Slots) (values : List Bool)
  | fixed (s : Slots) (values : Bytes)
  | binary (s : Slots) (offsets : List Nat) (data : Bytes)
  | view (s : Slots) (views : List Bytes)
  | struct (s : Slots) (children : List ArrayData)
  | list (s : Slots) (offsets : List Nat) (values : ArrayData)
  | fixedSizeList (s : Slots) (values : ArrayData)
  | map (s : Slots) (offsets : List Nat) (keys items : ArrayData)
  | sparseUnion (s : Slots) (codes : List UInt8) (children : List ArrayData)
  | denseUnion (s : Slots) (codes : List UInt8) (offsets : List Int) (children : List ArrayData)
  | dictionary (s : Slots) (indices : List Nat) (values : ArrayData)

namespace ArrayData

def slots : ArrayData → Slots
  | .bool s _ | .fixed s _ | .binary s _ _ | .view s _ | .struct s _ | .list s _ _
  | .fixedSizeList s _ | .map s _ _ _ | .sparseUnion s _ _ | .denseUnion s _ _ _
  | .dictionary s _ _ => s

def length (a : ArrayData) : Nat := a.slots.length

/-- `Array::Slice`: the same buffers under a narrower window. -/
def slice (off len : Nat) : ArrayData → ArrayData
  | .bool s v => .bool ⟨len, s.offset + off, s.validity⟩ v
  | .fixed s v => .fixed ⟨len, s.offset + off, s.validity⟩ v
  | .binary s o d => .binary ⟨len, s.offset + off, s.validity⟩ o d
  | .view s v => .view ⟨len, s.offset + off, s.validity⟩ v
  | .struct s c => .struct ⟨len, s.offset + off, s.validity⟩ c
  | .list s o v => .list ⟨len, s.offset + off, s.validity⟩ o v
  | .fixedSizeList s v => .fixedSizeList ⟨len, s.offset + off, s.validity⟩ v
  | .map s o k v => .map ⟨len, s.offset + off, s.validity⟩ o k v
  | .sparseUnion s t c => .sparseUnion ⟨len, s.offset + off, s.validity⟩ t c
  | .denseUnion s t o c => .denseUnion ⟨len, s.offset + off, s.validity⟩ t o c
  | .dictionary s i v => .dictionary ⟨len, s.offset + off, s.validity⟩ i v

/-! ## Accessors -/

/-- The `w` bytes of slot `i` in a values buffer. -/
def slotBytes (values : Bytes) (w i : Nat) : Bytes := (values.drop (i * w)).take w

/-- `GetView(i)` of a variable-length layout. -/
def getView : ArrayData → Nat → Option Bytes
  | .binary s offsets data, i =>
    let start := offsets.getD (s.offset + i) 0
    some ((data.drop start).take (offsets.getD (s.offset + i + 1) 0 - start))
  | .view s views, i => views[s.offset + i]?
  | _, _ => none

/-- `StructArray::field(k)` for every `k`: the children windowed to the struct. -/
def fields (s : Slots) (children : List ArrayData) : List ArrayData :=
  children.map (slice s.offset s.length)

/-- `value_offset(i)` and `value_length(i)` of a list or map layout. -/
def valueRange (s : Slots) (offsets : List Nat) (i : Nat) : Nat × Nat :=
  let start := offsets.getD (s.offset + i) 0
  (start, offsets.getD (s.offset + i + 1) 0 - start)

/-- What a union array says about a slot: `type_code(i)`, `child_id(i)`, and the
place in the child array that holds the value. -/
structure UnionSlot where
  code : UInt8
  child : Nat
  array : ArrayData
  /-- The slot's position in `array`. -/
  index : Nat

def unionSlot (codes : List UInt8) : ArrayData → Nat → Option UnionSlot
  | .sparseUnion s types children, i => do
    let code ← types[s.offset + i]?
    let child ← childId codes code
    let array ← children[child]?
    some ⟨code, child, array, s.offset + i⟩
  | .denseUnion s types offsets children, i => do
    let code ← types[s.offset + i]?
    let child ← childId codes code
    let array ← children[child]?
    let index ← offsets[s.offset + i]?.bind Int.toNat?
    some ⟨code, child, array, index⟩
  | _, _ => none

/-- `UnionArray::field(child)` and the index that goes with it: a sparse union's
child is windowed and keeps index `i`, a dense union's is raw and is indexed by
`value_offset(i)`. -/
def unionField (a : ArrayData) (u : UnionSlot) (i : Nat) : ArrayData × Nat :=
  match a with
  | .sparseUnion s _ _ => (u.array.slice s.offset s.length, i)
  | _ => (u.array, u.index)

mutual

/-- `Array::IsNull(i)`. A union has no validity bits of its own. -/
def isNull : DataType → ArrayData → Nat → Bool
  | .union _ fields codes, a, i =>
    match a.unionSlot codes i with
    | some u =>
      match (isNulls fields)[u.child]? with
      | some childIsNull => childIsNull u.array u.index
      | none => false
    | none => false
  | _, a, i => a.slots.isNull i

/-- The null test of each field's type. -/
def isNulls : List Field → List (ArrayData → Nat → Bool)
  | [] => []
  | ⟨_, t, _⟩ :: fs => isNull t :: isNulls fs

end

end ArrayData

/-- A leaf of type `t` spelled by `bs`, padded or cut to the width. -/
def FixedValue.ofBytes (t : FixedType) (bs : Bytes) : FixedValue where
  type := t
  repr := (bs ++ List.replicate t.width 0).take t.width
  size_eq := by simp

@[simp] theorem FixedValue.ofBytes_type (t : FixedType) (bs : Bytes) :
    (FixedValue.ofBytes t bs).type = t := rfl

theorem FixedValue.ofBytes_repr {t : FixedType} {bs : Bytes} (h : bs.length = t.width) :
    (FixedValue.ofBytes t bs).repr = bs := by
  simp [FixedValue.ofBytes, ← h]

theorem FixedValue.ofBytes_self (v : FixedValue) : FixedValue.ofBytes v.type v.repr = v := by
  obtain ⟨t, _, h⟩ := v
  simp [FixedValue.ofBytes, ← h]

namespace ArrayData

mutual

/-- The logical value in slot `i`. -/
def valueAt : DataType → ArrayData → Nat → Value
  | .bool, .bool s values, i =>
    if s.isNull i then .null else .bool (values.getD (s.offset + i) false)
  | .fixed t, .fixed s values, i =>
    if s.isNull i then .null
    else .fixed (FixedValue.ofBytes t (slotBytes values t.width (s.offset + i)))
  | .var t, a, i => if a.slots.isNull i then .null else .binary t ((a.getView i).getD [])
  | .struct fields, .struct s children, i =>
    if s.isNull i then .null
    else .struct (List.zipWith (fun read c => read c (s.offset + i)) (valuesAt fields) children)
  | .list _ ⟨_, t, _⟩, .list s offsets values, i =>
    if s.isNull i then .null
    else
      let (start, len) := valueRange s offsets i
      .list ((List.range' start len).map (valueAt t values))
  | .fixedSizeList ⟨_, t, _⟩ n, .fixedSizeList s values, i =>
    if s.isNull i then .null
    else .list ((List.range' ((s.offset + i) * n) n).map (valueAt t values))
  | .map ⟨_, kt, _⟩ ⟨_, vt, _⟩ _, .map s offsets keys items, i =>
    if s.isNull i then .null
    else
      let (start, len) := valueRange s offsets i
      .map ((List.range' start len).map (valueAt kt keys))
        ((List.range' start len).map (valueAt vt items))
  | .union _ fields codes, a, i =>
    match a.unionSlot codes i with
    | some u =>
      match (valuesAt fields)[u.child]? with
      | some read => Value.underCode u.code (read u.array u.index)
      | none => .null
    | none => .null
  | .dictionary _ t _, .dictionary s indices values, i =>
    if s.isNull i then .null else valueAt t values (indices.getD (s.offset + i) 0)
  | _, _, _ => .null

/-- The reading of each field's type. -/
def valuesAt : List Field → List (ArrayData → Nat → Value)
  | [] => []
  | ⟨_, t, _⟩ :: fs => valueAt t :: valuesAt fs

end

theorem isNulls_eq_map : ∀ fields, isNulls fields = fields.map (fun f => isNull f.type)
  | [] => rfl
  | ⟨_, t, _⟩ :: fs => by rw [isNulls, isNulls_eq_map fs]; rfl

theorem valuesAt_eq_map : ∀ fields, valuesAt fields = fields.map (fun f => valueAt f.type)
  | [] => rfl
  | ⟨_, t, _⟩ :: fs => by rw [valuesAt, valuesAt_eq_map fs]; rfl

/-! ## Structural validity -/

/-- The offsets of every slot in the window are there, ordered, and end inside `limit`. -/
def OffsetsIn (s : Slots) (offsets : List Nat) (limit : Nat) : Prop :=
  ∀ i < s.length, s.offset + i + 1 < offsets.length ∧
    offsets.getD (s.offset + i) 0 ≤ offsets.getD (s.offset + i + 1) 0 ∧
    offsets.getD (s.offset + i + 1) 0 ≤ limit

instance (s : Slots) (offsets : List Nat) (limit : Nat) : Decidable (OffsetsIn s offsets limit) :=
  inferInstanceAs (Decidable (∀ i < s.length, _))

mutual

/-- The array is laid out as its type says, and every buffer covers the window. -/
def Valid : DataType → ArrayData → Prop
  | .bool, .bool s values => s.offset + s.length ≤ values.length
  | .fixed t, .fixed s values => (s.offset + s.length) * t.width ≤ values.length
  | .var _, .binary s offsets data => OffsetsIn s offsets data.length
  | .var _, .view s views => s.offset + s.length ≤ views.length
  | .struct fields, .struct s children =>
    List.Forall₂ (fun ok c => ok c ∧ s.offset + s.length ≤ c.length) (valids fields) children
  | .list _ ⟨_, t, _⟩, .list s offsets values =>
    OffsetsIn s offsets values.length ∧ Valid t values
  | .fixedSizeList ⟨_, t, _⟩ n, .fixedSizeList s values =>
    (s.offset + s.length) * n ≤ values.length ∧ Valid t values
  | .map ⟨_, kt, _⟩ ⟨_, vt, _⟩ _, .map s offsets keys items =>
    OffsetsIn s offsets keys.length ∧ OffsetsIn s offsets items.length ∧
      Valid kt keys ∧ Valid vt items
  | .union .sparse fields codes, .sparseUnion s types children =>
    List.Forall₂ (fun ok c => ok c ∧ s.offset + s.length ≤ c.length) (valids fields) children ∧
      ∀ i < s.length, ∃ u, unionSlot codes (.sparseUnion s types children) i = some u
  | .union .dense fields codes, .denseUnion s types offsets children =>
    List.Forall₂ (fun ok c => ok c) (valids fields) children ∧
      ∀ i < s.length, ∃ u, unionSlot codes (.denseUnion s types offsets children) i = some u ∧
        u.index < u.array.length
  | .dictionary _ t _, .dictionary s indices values =>
    (∀ i < s.length, s.isNull i = false →
      ∃ k, indices[s.offset + i]? = some k ∧ k < values.length) ∧ Valid t values
  | _, _ => False

/-- The validity of an array of each field's type. -/
def valids : List Field → List (ArrayData → Prop)
  | [] => []
  | ⟨_, t, _⟩ :: fs => Valid t :: valids fs

end

theorem valids_eq_map : ∀ fields, valids fields = fields.map (fun f => Valid f.type)
  | [] => rfl
  | ⟨_, t, _⟩ :: fs => by rw [valids, valids_eq_map fs]; rfl

/-! ## Dictionary entries -/

mutual

/-- No dictionary entry that slot `i` is read through is null. What lies below a null
parent is not read. -/
def Resolves : DataType → ArrayData → Nat → Prop
  | .struct fields, .struct s children, i => s.isNull i = false →
    List.Forall₂ (fun ok c => ok c (s.offset + i)) (fieldsResolve fields) children
  | .list _ ⟨_, t, _⟩, .list s offsets values, i => s.isNull i = false →
    ∀ j ∈ List.range' (valueRange s offsets i).1 (valueRange s offsets i).2, Resolves t values j
  | .fixedSizeList ⟨_, t, _⟩ n, .fixedSizeList s values, i => s.isNull i = false →
    ∀ j ∈ List.range' ((s.offset + i) * n) n, Resolves t values j
  | .map ⟨_, kt, _⟩ ⟨_, vt, _⟩ _, .map s offsets keys items, i => s.isNull i = false →
    ∀ j ∈ List.range' (valueRange s offsets i).1 (valueRange s offsets i).2,
      Resolves kt keys j ∧ Resolves vt items j
  | .union _ fields codes, a, i => ∀ u, a.unionSlot codes i = some u →
    ∀ ok, (fieldsResolve fields)[u.child]? = some ok → ok u.array u.index
  | .dictionary _ t _, .dictionary s indices values, i => s.isNull i = false →
    values.isNull t (indices.getD (s.offset + i) 0) = false
  | _, _, _ => True

/-- The same for a slot of each field's type. -/
def fieldsResolve : List Field → List (ArrayData → Nat → Prop)
  | [] => []
  | ⟨_, t, _⟩ :: fs => Resolves t :: fieldsResolve fs

end

theorem fieldsResolve_eq_map : ∀ fields, fieldsResolve fields =
    fields.map (fun f => Resolves f.type)
  | [] => rfl
  | ⟨_, t, _⟩ :: fs => by rw [fieldsResolve, fieldsResolve_eq_map fs]; rfl

end ArrayData

/-! ## Scalars -/

/-- `arrow::Scalar`. Leaves carry their own type; a null pointer and a scalar that
is not valid are both `null`. A list scalar holds its elements as an array, a map
scalar its entries as a struct array. -/
inductive Scalar where
  | null
  | bool (b : Bool)
  | fixed (v : FixedValue)
  | binary (t : VarType) (data : Bytes)
  | struct (children : List Scalar)
  | list (value : ArrayData)
  | map (entries : ArrayData)
  | sparseUnion (code : UInt8) (children : List Scalar)
  | denseUnion (code : UInt8) (value : Scalar)
  | dictionary (valueType : DataType) (index : Option Nat) (values : ArrayData)

namespace Scalar

def isNull : Scalar → Bool
  | .null => true
  | _ => false

theorem isNull_iff {s : Scalar} : s.isNull = true ↔ s = .null := by
  cases s <;> simp [isNull]

/-- `Array::GetScalar(i)` for the leaf layouts, the only ones a dictionary may hold. -/
def leafAt : DataType → ArrayData → Nat → Option Scalar
  | .bool, .bool s values, i =>
    some (if s.isNull i then .null else .bool (values.getD (s.offset + i) false))
  | .fixed t, .fixed s values, i =>
    some (if s.isNull i then .null
      else .fixed (FixedValue.ofBytes t (ArrayData.slotBytes values t.width (s.offset + i))))
  | .var t, a, i =>
    some (if a.slots.isNull i then .null else .binary t ((a.getView i).getD []))
  | _, _, _ => none

/-- `DictionaryScalar::GetEncodedValue`. -/
def getEncodedValue (valueType : DataType) (index : Option Nat) (values : ArrayData) :
    Option Scalar :=
  match index with
  | none => some .null
  | some k => if k < values.length then leafAt valueType values k else none

/-- The logical values in slots `0 .. n` of an array read by `read`. -/
def readAll (read : Nat → Value) (n : Nat) : List Value := (List.range n).map read

mutual

/-- The logical value of a scalar of the type. -/
def valueOf : DataType → Scalar → Value
  | .struct fields, .struct cs => .struct (List.zipWith (fun read c => read c) (valuesOf fields) cs)
  | .list _ ⟨_, t, _⟩, .list a => .list (readAll (a.valueAt t) a.length)
  | .fixedSizeList ⟨_, t, _⟩ _, .list a => .list (readAll (a.valueAt t) a.length)
  | .map ⟨_, kt, _⟩ ⟨_, vt, _⟩ _, .map (.struct s [keys, items]) =>
    .map (readAll ((keys.slice s.offset s.length).valueAt kt) s.length)
      (readAll ((items.slice s.offset s.length).valueAt vt) s.length)
  | .union _ fields codes, .sparseUnion code cs =>
    match childId codes code with
    | some k =>
      match (valuesOf fields)[k]?, cs[k]? with
      | some read, some c => Value.underCode code (read c)
      | _, _ => .null
    | none => .null
  | .union _ fields codes, .denseUnion code c =>
    match childId codes code with
    | some k =>
      match (valuesOf fields)[k]? with
      | some read => Value.underCode code (read c)
      | none => .null
    | none => .null
  | .dictionary _ t _, .dictionary _ index values =>
    match index with
    | some k => values.valueAt t k
    | none => .null
  | .dictionary _ t _, s => valueOf t s
  | _, .bool b => .bool b
  | _, .fixed v => .fixed v
  | _, .binary t data => .binary t data
  | _, _ => .null

/-- The reading of each field's type. -/
def valuesOf : List Field → List (Scalar → Value)
  | [] => []
  | ⟨_, t, _⟩ :: fs => valueOf t :: valuesOf fs

end

theorem valuesOf_eq_map : ∀ fields, valuesOf fields = fields.map (fun f => valueOf f.type)
  | [] => rfl
  | ⟨_, t, _⟩ :: fs => by rw [valuesOf, valuesOf_eq_map fs]; rfl

mutual

/-- A scalar of the type, as Arrow's constructors build them. The active child of
a valid union scalar is itself valid. -/
def Valid : DataType → Scalar → Prop
  | _, .null => True
  | .bool, .bool _ => True
  | .fixed t, .fixed v => v.type = t
  | .var t, .binary t' _ => t' = t
  | .struct fields, .struct cs => List.Forall₂ (fun ok c => ok c) (valids fields) cs
  | .list _ ⟨_, t, _⟩, .list a => a.Valid t
  | .fixedSizeList ⟨_, t, _⟩ n, .list a => a.Valid t ∧ a.length = n
  | .map key item _, .map entries => entries.Valid (.struct [key, item])
  | .union .sparse fields codes, .sparseUnion code cs =>
    List.Forall₂ (fun ok c => ok c) (valids fields) cs ∧
      ∃ k c, childId codes code = some k ∧ cs[k]? = some c ∧ c.isNull = false
  | .union .dense fields codes, .denseUnion code c =>
    c.isNull = false ∧ ∃ k ok, childId codes code = some k ∧ (valids fields)[k]? = some ok ∧ ok c
  | .dictionary _ t _, .dictionary t' _ values => t' = t ∧ values.Valid t
  | .dictionary _ t _, s => Valid t s
  | _, _ => False

/-- The validity of a scalar of each field's type. -/
def valids : List Field → List (Scalar → Prop)
  | [] => []
  | ⟨_, t, _⟩ :: fs => Valid t :: valids fs

end

theorem valids_eq_map : ∀ fields, valids fields = fields.map (fun f => Valid f.type)
  | [] => rfl
  | ⟨_, t, _⟩ :: fs => by rw [valids, valids_eq_map fs]; rfl

mutual

/-- Every dictionary entry the scalar is read through is there and not null. -/
def Resolves : DataType → Scalar → Prop
  | .struct fields, .struct cs => List.Forall₂ (fun ok c => ok c) (fieldsResolve fields) cs
  | .list _ ⟨_, t, _⟩, .list a => ∀ i ∈ List.range' 0 a.length, a.Resolves t i
  | .fixedSizeList ⟨_, t, _⟩ _, .list a => ∀ i ∈ List.range' 0 a.length, a.Resolves t i
  | .map ⟨_, kt, _⟩ ⟨_, vt, _⟩ _, .map (.struct s [keys, items]) =>
    ∀ i ∈ List.range' 0 s.length, (keys.slice s.offset s.length).Resolves kt i ∧
      (items.slice s.offset s.length).Resolves vt i
  | .union _ fields codes, .sparseUnion code cs => ∀ k, childId codes code = some k →
    ∀ ok c, (fieldsResolve fields)[k]? = some ok → cs[k]? = some c → ok c
  | .union _ fields codes, .denseUnion code c => ∀ k, childId codes code = some k →
    ∀ ok, (fieldsResolve fields)[k]? = some ok → ok c
  | .dictionary _ t _, .dictionary _ index values =>
    ∃ k, index = some k ∧ k < values.length ∧ values.isNull t k = false
  | _, _ => True

/-- The same for a scalar of each field's type. -/
def fieldsResolve : List Field → List (Scalar → Prop)
  | [] => []
  | ⟨_, t, _⟩ :: fs => Resolves t :: fieldsResolve fs

end

theorem fieldsResolve_eq_map : ∀ fields, fieldsResolve fields =
    fields.map (fun f => Resolves f.type)
  | [] => rfl
  | ⟨_, t, _⟩ :: fs => by rw [fieldsResolve, fieldsResolve_eq_map fs]; rfl

end Scalar

end Fletcher.Arrow
