import Fletcher.Arrow.ArrayReading

/-!
# Columns

An `arrow::Array` as its users hold it: the buffers together with their type. The
checked down-casts to `StructArray`, `ListArray` and `MapArray` and the accessors
of those are here, each with one lemma that says what it reads in terms of the
logical values: `StructArray::field(i)` is windowed to the struct, while
`values()`, `keys()` and `items()` are the whole child and are addressed by
`value_offset(i)`.
-/

namespace Fletcher.Arrow

open Lib List ArrayData

variable {c : Column} {a : ListArray} {i : Nat}

namespace ArrayData

mutual

/-- No map in the array has a null key, not even in an entry no slot refers to. -/
def KeysPresent : DataType → ArrayData → Prop
  | .struct fields, .struct _ children =>
    List.Forall₂ (fun ok c => ok c) (keysPresents fields) children
  | .list _ ⟨_, t, _⟩, .list _ _ values => KeysPresent t values
  | .map ⟨_, kt, _⟩ ⟨_, vt, _⟩ _, .map _ _ keys items =>
    (∀ i < keys.length, keys.isNull kt i = false) ∧ KeysPresent kt keys ∧ KeysPresent vt items
  | _, _ => True

/-- The same for an array of each field's type. -/
def keysPresents : List Field → List (ArrayData → Prop)
  | [] => []
  | ⟨_, t, _⟩ :: fs => KeysPresent t :: keysPresents fs

end

theorem keysPresents_eq_map : ∀ fields, keysPresents fields =
    fields.map (fun f => KeysPresent f.type)
  | [] => rfl
  | ⟨_, t, _⟩ :: fs => by rw [keysPresents, keysPresents_eq_map fs]; rfl

theorem keysPresent_slice (t : DataType) (a : ArrayData) (off len : Nat) :
    (a.slice off len).KeysPresent t ↔ a.KeysPresent t := by
  cases t <;> cases a <;> simp only [slice, KeysPresent]

end ArrayData

/-- `arrow::Array`. -/
structure Column where
  type : DataType
  array : ArrayData

namespace Column

def length (c : Column) : Nat := c.array.length

/-- `IsNull(i)`. -/
def isNull (c : Column) (i : Nat) : Bool := c.array.isNull c.type i

/-- `null_count()`. -/
def nullCount (c : Column) : Nat := (List.range c.length).countP c.isNull

/-- The logical value in slot `i`. -/
def valueAt (c : Column) (i : Nat) : Value := c.array.valueAt c.type i

/-- `Value(i)` and `GetView(i)` of the leaf layouts. They do not look at the validity. -/
def value (c : Column) (i : Nat) : Value :=
  match c.type, c.array with
  | .bool, .bool s values => .bool (values.getD (s.offset + i) false)
  | .fixed t, .fixed s values =>
    .fixed (FixedValue.ofBytes t (slotBytes values t.width (s.offset + i)))
  | .var t, a => .binary t ((a.getView i).getD [])
  | _, _ => .null

/-- What Arrow guarantees of an array: buffers that cover it, and maps without null keys. -/
structure WellFormed (c : Column) : Prop where
  valid : c.array.Valid c.type
  keys : c.array.KeysPresent c.type

end Column

/-- The types whose arrays `Value(i)` and `GetView(i)` read. -/
def DataType.isLeaf : DataType → Bool
  | .bool | .fixed _ | .var _ => true
  | _ => false

/-! ## The array classes -/

/-- `arrow::StructArray`. -/
structure StructArray where
  fields : List Field
  slots : Slots
  children : List ArrayData

namespace StructArray

def column (a : StructArray) : Column := ⟨.struct a.fields, .struct a.slots a.children⟩

def length (a : StructArray) : Nat := a.slots.length

def isNull (a : StructArray) (i : Nat) : Bool := a.slots.isNull i

/-- `field(i)` for every `i`. -/
def columns (a : StructArray) : List Column :=
  List.zipWith (fun f c => ⟨f.type, c⟩) a.fields (ArrayData.fields a.slots a.children)

end StructArray

/-- `arrow::ListArray`. -/
structure ListArray where
  item : Field
  slots : Slots
  offsets : List Nat
  child : ArrayData

namespace ListArray

def column (a : ListArray) : Column := ⟨.list .list a.item, .list a.slots a.offsets a.child⟩

def isNull (a : ListArray) (i : Nat) : Bool := a.slots.isNull i

/-- `value_offset(i)`. -/
def valueOffset (a : ListArray) (i : Nat) : Nat := (valueRange a.slots a.offsets i).1

/-- `value_length(i)`. -/
def valueLength (a : ListArray) (i : Nat) : Nat := (valueRange a.slots a.offsets i).2

/-- `values()`. -/
def values (a : ListArray) : Column := ⟨a.item.type, a.child⟩

end ListArray

/-- `arrow::MapArray`. -/
structure MapArray where
  key : Field
  item : Field
  sorted : Bool
  slots : Slots
  offsets : List Nat
  keyChild : ArrayData
  itemChild : ArrayData

namespace MapArray

def column (a : MapArray) : Column :=
  ⟨.map a.key a.item a.sorted, .map a.slots a.offsets a.keyChild a.itemChild⟩

def isNull (a : MapArray) (i : Nat) : Bool := a.slots.isNull i

/-- `value_offset(i)`. -/
def valueOffset (a : MapArray) (i : Nat) : Nat := (valueRange a.slots a.offsets i).1

/-- `value_length(i)`. -/
def valueLength (a : MapArray) (i : Nat) : Nat := (valueRange a.slots a.offsets i).2

/-- `keys()`. -/
def keys (a : MapArray) : Column := ⟨a.key.type, a.keyChild⟩

/-- `items()`. -/
def items (a : MapArray) : Column := ⟨a.item.type, a.itemChild⟩

end MapArray

namespace Column

/-- The down-cast after `type_id() == STRUCT`. -/
def asStruct : Column → Option StructArray
  | ⟨.struct fields, .struct s children⟩ => some ⟨fields, s, children⟩
  | _ => none

/-- The down-cast after `type_id() == LIST`. -/
def asList : Column → Option ListArray
  | ⟨.list .list item, .list s offsets values⟩ => some ⟨item, s, offsets, values⟩
  | _ => none

/-- The down-cast after `type_id() == MAP`. -/
def asMap : Column → Option MapArray
  | ⟨.map key item sorted, .map s offsets keys items⟩ =>
    some ⟨key, item, sorted, s, offsets, keys, items⟩
  | _ => none

theorem asStruct_eq_some {a : StructArray} : c.asStruct = some a ↔ c = a.column := by
  constructor
  · intro h
    unfold asStruct at h
    split at h
    · cases h
      rfl
    · cases h
  · rintro rfl
    rfl

theorem asList_eq_some : c.asList = some a ↔ c = a.column := by
  constructor
  · intro h
    unfold asList at h
    split at h
    · cases h
      rfl
    · cases h
  · rintro rfl
    rfl

theorem asMap_eq_some {a : MapArray} : c.asMap = some a ↔ c = a.column := by
  constructor
  · intro h
    unfold asMap at h
    split at h
    · cases h
      rfl
    · cases h
  · rintro rfl
    rfl

theorem structColumn_inj {a b : StructArray} (h : a.column = b.column) : a = b :=
  Option.some.inj ((asStruct_eq_some.mpr rfl).symm.trans (asStruct_eq_some.mpr h))

theorem listColumn_inj {b : ListArray} (h : a.column = b.column) : a = b :=
  Option.some.inj ((asList_eq_some.mpr rfl).symm.trans (asList_eq_some.mpr h))

theorem mapColumn_inj {a b : MapArray} (h : a.column = b.column) : a = b :=
  Option.some.inj ((asMap_eq_some.mpr rfl).symm.trans (asMap_eq_some.mpr h))

/-! A well-formed array is laid out as its type says, so the test of the type is enough. -/

theorem WellFormed.eq_struct (h : c.WellFormed) {fields : List Field}
    (ht : c.type = .struct fields) : ∃ a : StructArray, c = a.column ∧ a.fields = fields := by
  obtain ⟨t, array⟩ := c
  obtain rfl : t = .struct fields := ht
  have hv := h.valid
  cases array with
  | struct s children => exact ⟨⟨fields, s, children⟩, rfl, rfl⟩
  | _ => cases hv

theorem WellFormed.eq_list (h : c.WellFormed) {item : Field}
    (ht : c.type = .list .list item) : ∃ a : ListArray, c = a.column ∧ a.item = item := by
  obtain ⟨t, array⟩ := c
  obtain rfl : t = .list .list item := ht
  have hv := h.valid
  cases array with
  | list s offsets values => exact ⟨⟨item, s, offsets, values⟩, rfl, rfl⟩
  | _ => cases hv

theorem WellFormed.eq_map (h : c.WellFormed) {key item : Field} {sorted : Bool}
    (ht : c.type = .map key item sorted) :
    ∃ a : MapArray, c = a.column ∧ a.key = key ∧ a.item = item := by
  obtain ⟨t, array⟩ := c
  obtain rfl : t = .map key item sorted := ht
  have hv := h.valid
  cases array with
  | map s offsets keys items =>
    exact ⟨⟨key, item, sorted, s, offsets, keys, items⟩, rfl, rfl, rfl⟩
  | _ => cases hv

theorem nullCount_eq_zero : c.nullCount = 0 ↔ ∀ i < c.length, c.isNull i = false := by
  simp [nullCount, countP_eq_zero]

/-- A valid slot of a leaf column: what is read is the value. -/
theorem value_eq (h : c.WellFormed) (ht : c.type.isLeaf = true)
    (hn : c.isNull i = false) : c.value i = c.valueAt i := by
  obtain ⟨t, array⟩ := c
  have hv := h.valid
  cases t with
  | bool | fixed t =>
    cases array <;> simp only [ArrayData.Valid] at hv
    simp only [isNull, ArrayData.isNull, ArrayData.slots] at hn
    simp [value, valueAt, ArrayData.valueAt, hn]
  | var t =>
    simp only [isNull, ArrayData.isNull] at hn
    simp [value, valueAt, ArrayData.valueAt, hn]
  | _ => cases ht

/-- The reading of a leaf column is null where its validity bit says so. -/
theorem valueAt_isNull_leaf (h : c.WellFormed) (ht : c.type.isLeaf = true) :
    (c.valueAt i).isNull = c.isNull i := by
  obtain ⟨t, array⟩ := c
  have hv := h.valid
  cases t with
  | bool | fixed t =>
    cases array <;> simp only [ArrayData.Valid] at hv
    simp only [valueAt, isNull, ArrayData.valueAt, ArrayData.isNull, ArrayData.slots]
    split <;> simp_all [Value.isNull]
  | var t =>
    simp only [valueAt, isNull, ArrayData.valueAt, ArrayData.isNull]
    split <;> simp_all [Value.isNull]
  | _ => cases ht

end Column

/-! ## What the array classes read -/

namespace StructArray

theorem isNull_column (a : StructArray) (i : Nat) : a.column.isNull i = a.isNull i := by
  simp [column, Column.isNull, ArrayData.isNull, isNull, ArrayData.slots]

theorem columns_eq (a : StructArray) : a.columns = zipWith
    (fun f c => ⟨f.type, c.slice a.slots.offset a.slots.length⟩) a.fields a.children := by
  rw [columns, ArrayData.fields, zipWith_map_right]

/-- The children of a well-formed struct, each with its field. -/
theorem columns_wellFormed {a : StructArray} (h : a.column.WellFormed) :
    Forall₂ (fun f (c : Column) => c.type = f.type ∧ c.WellFormed ∧ c.length = a.length)
      a.fields a.columns := by
  have hval := valid_struct.mp h.valid
  have hkeys := h.keys
  rw [column, ArrayData.KeysPresent, keysPresents_eq_map, forall₂_map_left_iff] at hkeys
  have hboth : Forall₂ (fun (f : Field) c => (c.Valid f.type ∧
      a.slots.offset + a.slots.length ≤ c.length) ∧ c.KeysPresent f.type) a.fields a.children :=
    (forall₂_congr_mem hval fun _ _ _ hv => ⟨fun hk => ⟨hv, hk⟩, And.right⟩).mp hkeys
  rw [columns_eq]
  refine forall₂_zipWith hboth ?_
  intro f _ c ⟨⟨hv, hlen⟩, hk⟩
  exact ⟨rfl, ⟨valid_slice hv hlen, (keysPresent_slice _ _ _ _).mpr hk⟩,
    length_slice _ _ _⟩

/-- A struct slot holds the values of its fields. -/
theorem valueAt_column (a : StructArray) (i : Nat) : a.column.valueAt i =
      if a.isNull i then .null else .struct (a.columns.map (fun c => c.valueAt i)) := by
  cases hn : a.isNull i with
  | true => simp [column, Column.valueAt, valueAt, show a.slots.isNull i = true from hn]
  | false =>
    rw [if_neg Bool.false_ne_true, column, Column.valueAt, valueAt_struct hn,
      columns_eq, map_zipWith]
    simp only [Column.valueAt, valueAt_slice]

end StructArray

namespace ListArray

theorem isNull_column (a : ListArray) (i : Nat) : a.column.isNull i = a.isNull i := by
  simp [column, Column.isNull, ArrayData.isNull, isNull, ArrayData.slots]

theorem values_wellFormed (h : a.column.WellFormed) : a.values.WellFormed := by
  obtain ⟨⟨_, t, _⟩, s, _, _⟩ := a
  obtain ⟨hv, hk⟩ := h
  simp only [column, ArrayData.Valid] at hv
  simp only [column, ArrayData.KeysPresent] at hk
  exact ⟨hv.2, hk⟩

/-- The run of a slot lies inside the child. -/
theorem range_le (h : a.column.WellFormed) (hi : i < a.column.length) :
    a.valueOffset i + a.valueLength i ≤ a.values.length := by
  obtain ⟨⟨_, t, _⟩, s, _, _⟩ := a
  have hv := h.valid
  simp only [column, ArrayData.Valid] at hv
  obtain ⟨-, _, _⟩ := hv.1 i hi
  simp only [valueOffset, valueLength, values, valueRange, Column.length]
  omega

/-- A list slot holds the values of its run. -/
theorem valueAt_column (a : ListArray) (i : Nat) : a.column.valueAt i = if a.isNull i then .null
      else .list ((range' (a.valueOffset i) (a.valueLength i)).map a.values.valueAt) := by
  obtain ⟨⟨_, t, _⟩, s, _, _⟩ := a
  simp only [column, Column.valueAt, valueAt, isNull]
  rfl

end ListArray

namespace MapArray

theorem isNull_column (a : MapArray) (i : Nat) : a.column.isNull i = a.isNull i := by
  simp [column, Column.isNull, ArrayData.isNull, isNull, ArrayData.slots]

/-- The children of a well-formed map. -/
theorem children_wellFormed {a : MapArray} (h : a.column.WellFormed) :
    a.keys.WellFormed ∧ a.items.WellFormed ∧ ∀ i < a.keys.length, a.keys.isNull i = false := by
  obtain ⟨⟨_, _, _⟩, ⟨_, _, _⟩, _, s, _, keys, items⟩ := a
  obtain ⟨hv, hk⟩ := h
  simp only [column, ArrayData.Valid] at hv
  simp only [column, ArrayData.KeysPresent] at hk
  exact ⟨⟨hv.2.2.1, hk.2.1⟩, ⟨hv.2.2.2, hk.2.2⟩, hk.1⟩

/-- The run of a slot lies inside both children. -/
theorem range_le {a : MapArray} (h : a.column.WellFormed) (hi : i < a.column.length) :
    a.valueOffset i + a.valueLength i ≤ a.keys.length ∧
      a.valueOffset i + a.valueLength i ≤ a.items.length := by
  obtain ⟨⟨_, _, _⟩, ⟨_, _, _⟩, _, s, _, keys, items⟩ := a
  have hv := h.valid
  simp only [column, ArrayData.Valid] at hv
  obtain ⟨-, _, _⟩ := hv.1 i hi
  obtain ⟨-, -, _⟩ := hv.2.1 i hi
  simp only [valueOffset, valueLength, MapArray.keys, MapArray.items, valueRange,
    Column.length]
  omega

/-- A map slot holds the keys and the values of its run. -/
theorem valueAt_column (a : MapArray) (i : Nat) : a.column.valueAt i = if a.isNull i then .null
      else .map ((range' (a.valueOffset i) (a.valueLength i)).map a.keys.valueAt)
        ((range' (a.valueOffset i) (a.valueLength i)).map a.items.valueAt) := by
  obtain ⟨⟨_, _, _⟩, ⟨_, _, _⟩, _, s, _, keys, items⟩ := a
  simp only [column, Column.valueAt, valueAt, isNull]
  rfl

end MapArray

end Fletcher.Arrow
