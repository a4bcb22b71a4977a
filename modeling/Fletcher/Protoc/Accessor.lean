import Fletcher.Arrow.Column
import Fletcher.Protoc.RowClass

/-!
# The generated RecordBatch accessors

For every message the plugin emits a class that reads the rows of a `RecordBatch`
or of a `StructArray` in place. `Make` checks the columns positionally and keeps
typed handles on them; a getter indexes those handles and returns a value, a view
of a nested row or a span, which are followed further.

`FieldKind` is what the emitter has decided about a field, with the accessor
classes it names followed, and `accessorClass` follows them. `make` is the
generated `Make`, `View` everything a getter or a span may hand out, and
`View.follow` one call on it.

Three coordinate systems meet here. A struct's children are windowed to the
struct and share its rows. The elements of a list or map live in the child array,
which is not windowed, from `value_offset(row)` on; the accessor of a repeated
message is made over that whole child. In a nested list the offsets of one level
address the next.
-/

namespace Fletcher.Protoc

open Lib Arrow Fletcher.Core

variable {n : Nat}

/-! ## The classes -/

/-- A field of an accessor class by its `FieldMapping`, with the classes it names
followed: `cls` is the name of one and `fields` are its fields. -/
inductive FieldKind where
  | scalar (kind : LogicalKind)
  | struct (cls : String) (fields : List (FieldOf FieldKind))
  | repeatedScalar (kind : LogicalKind)
  | repeatedStruct (cls : String) (fields : List (FieldOf FieldKind))
  | map (key value : LogicalKind)
  | mapStruct (key : LogicalKind) (cls : String) (fields : List (FieldOf FieldKind))
  | nestedList (depth : Nat) (cls : String) (fields : List (FieldOf FieldKind))
  /-- A nested list without a message at the bottom. There is no accessor class to
  name for it, and no getter. -/
  | nestedScalars (depth : Nat) (kind : LogicalKind)

abbrev AccessorClass := List (FieldOf FieldKind)

@[elab_as_elim, induction_eliminator]
theorem FieldKind.induction {P : FieldKind → Prop} (scalar : ∀ kind, P (.scalar kind))
    (struct : ∀ cls fields, (∀ f ∈ fields, P f.type) → P (.struct cls fields))
    (repeatedScalar : ∀ kind, P (.repeatedScalar kind))
    (repeatedStruct : ∀ cls fields, (∀ f ∈ fields, P f.type) → P (.repeatedStruct cls fields))
    (map : ∀ key value, P (.map key value))
    (mapStruct : ∀ key cls fields, (∀ f ∈ fields, P f.type) → P (.mapStruct key cls fields))
    (nestedList : ∀ depth cls fields, (∀ f ∈ fields, P f.type) → P (.nestedList depth cls fields))
    (nestedScalars : ∀ depth kind, P (.nestedScalars depth kind)) (k : FieldKind) : P k := by
  refine @FieldKind.rec P (fun fs => ∀ f ∈ fs, P f.type) (fun f => P f.type) scalar struct
    repeatedScalar repeatedStruct map mapStruct nestedList nestedScalars (by simp) ?_
    (fun _ _ _ h => h) k
  intro f fs hf hfs g hg
  rcases List.mem_cons.mp hg with rfl | hg
  · exact hf
  · exact hfs g hg

/-- What the emitter makes of a mapping, once the classes it names are known. -/
def linkMapping (className : Fin n → String) (cls : Fin n → Gen AccessorClass) :
    FieldMapping n → Gen FieldKind
  | .scalar _ kind => .ok (.scalar kind)
  | .repeatedScalar kind => .ok (.repeatedScalar kind)
  | .struct _ m => do
    let fields ← cls m
    pure (.struct (className m) fields)
  | .repeatedStruct m => do
    let fields ← cls m
    pure (.repeatedStruct (className m) fields)
  | .nestedList _ depth (.struct m) => do
    let fields ← cls m
    pure (.nestedList depth (className m) fields)
  | .nestedList _ depth (.scalar kind) => .ok (.nestedScalars depth kind)
  | .map key (.struct m) => do
    let fields ← cls m
    pure (.mapStruct key (className m) fields)
  | .map key (.scalar kind) => .ok (.map key kind)

/-- The accessor class of a message. -/
def accessorClass (pool : Pool n) (className : Fin n → String) : Nat → Fin n → Gen AccessorClass
  | 0, _ => .error .diverges
  | fuel + 1, m => do
    let records ← gatherFields pool (fuel + 1) m
    records.mapM fun r => do
      let kind ← match projectIrToFieldMapping r.node with
        | some mapping => linkMapping className (accessorClass pool className fuel) mapping
        | none => .error .undefined
      pure ⟨r.name, kind, r.node.nullable⟩

/-- `IsSupportedField`. `LookupScalarArray` knows every kind the classifier produces. -/
def FieldKind.isSupported : FieldKind → Bool
  | .nestedList depth _ _ => depth == 2 || depth == 3
  | .nestedScalars _ _ => false
  | _ => true

/-! ## Validation -/

/-- `arrow::Status::Invalid`. -/
inductive Status where
  | invalid (text : String)
  deriving DecidableEq, Repr

abbrev Result := Except Status

/-- What an accessor class keeps: the number of rows, the struct it was made over, and
the handles of its fields in order, each with the name and the optionality of its getter. -/
structure AccessorOf (C : Type) where
  numRows : Nat
  structValidity : Option StructArray
  cached : List (FieldOf C)

/-- The handles kept for a field. -/
inductive Cached where
  | scalar (values : Column)
  | struct (structs : StructArray) (inner : AccessorOf Cached)
  | repeatedScalar (list : ListArray)
  /-- A repeated message, and a nested list with its inner levels from the outside in. -/
  | lists (outer : ListArray) (levels : List ListArray) (leaf : AccessorOf Cached)
  | map (map : MapArray)
  | mapStruct (map : MapArray) (inner : AccessorOf Cached)

abbrev Accessor := AccessorOf Cached

/-- `is_null(row)`. -/
def AccessorOf.isNull {C : Type} (acc : AccessorOf C) (row : Nat) : Bool :=
  match acc.structValidity with
  | some structs => structs.isNull row
  | none => false

/-- `Equals` against a leaf type. -/
def DataType.equalsLeaf : DataType → DataType → Bool
  | .bool, .bool => true
  | .fixed t, .fixed t' => t = t'
  | .var t, .var t' => t = t'
  | _, _ => false

section Make

/-! `text` is `DataType::ToString`. -/

variable (text : DataType → String)

def expectedGot (place expected : String) (col : Column) : Status :=
  .invalid (place ++ ": expected " ++ expected ++ ", got " ++ text col.type)

def checkType (place : String) (kind : LogicalKind) (col : Column) : Result Unit :=
  if DataType.equalsLeaf (emitScalarType kind) col.type then pure ()
  else .error (expectedGot text place (text (emitScalarType kind)) col)

def castStruct (place : String) (col : Column) : Result StructArray :=
  match col.asStruct with
  | some structs => pure structs
  | none => .error (expectedGot text place "struct" col)

def castList (place : String) (col : Column) : Result ListArray :=
  match col.asList with
  | some list => pure list
  | none => .error (expectedGot text place "list" col)

def castMap (place : String) (col : Column) : Result MapArray :=
  match col.asMap with
  | some map => pure map
  | none => .error (expectedGot text place "map" col)

/-- The null gate of a field that is not nullable. -/
def checkNulls (nullable : Bool) (place : String) (col : Column) : Result Unit :=
  if nullable || col.nullCount == 0 then pure ()
  else .error (.invalid (place ++ ": non-nullable, found " ++ toString col.nullCount ++ " nulls"))

/-- The inner levels of a nested list: `rest` casts to list from `level` on, each over the
values of the one before. They have no null gate. -/
def castLevels (place : String) : Nat → Nat → Column → Result (List ListArray × Column)
  | _, 0, col => pure ([], col)
  | level, rest + 1, col => do
    let list ← castList text (place ++ " level " ++ toString level) col
    let (lists, leaf) ← castLevels place (level + 1) rest list.values
    pure (list :: lists, leaf)

def columnPlace (cls : String) (i : Nat) (name : String) : String :=
  cls ++ " column " ++ toString i ++ " '" ++ name ++ "'"

/-- The first field without support, with its position from `i` on. -/
def firstUnsupported : AccessorClass → Nat → Option (Nat × String)
  | [], _ => none
  | f :: fs, i => if f.type.isSupported then firstUnsupported fs (i + 1) else some (i, f.name)

/-- `FromColumns_` around the checks of the single columns, `check`. -/
def fromColumns (check : List Column → Result (List (FieldOf Cached))) (cls : String)
    (fields : AccessorClass) (numRows : Nat) (cols : List Column) : Result Accessor :=
  match firstUnsupported fields 0 with
  | some (i, name) =>
    .error (.invalid (columnPlace cls i name ++
      ": unsupported column construct for the RBA accessor"))
  | none =>
    if cols.length = fields.length then do
      let cached ← check cols
      pure ⟨numRows, none, cached⟩
    else
      .error (.invalid (cls ++ ": expected " ++ toString fields.length ++ " columns, got " ++
        toString cols.length))

/-- `Make` over a `StructArray`. -/
def makeStructs (check : List Column → Result (List (FieldOf Cached))) (cls : String)
    (fields : AccessorClass) (structs : StructArray) : Result Accessor := do
  let self ← fromColumns check cls fields structs.length structs.columns
  pure { self with structValidity := some structs }

mutual

/-- `EmitFieldFromColumns`: the check of one column, and the handles it keeps. -/
def fieldFromColumns : FieldKind → Bool → String → Column → Result Cached
  | .scalar kind, nullable, place, col => do
    checkType text place kind col
    checkNulls nullable place col
    pure (.scalar col)
  | .struct cls fields, nullable, place, col => do
    let structs ← castStruct text place col
    checkNulls nullable place col
    let inner ← makeStructs (fun cols => columnsFrom cls fields 0 cols) cls fields structs
    pure (.struct structs inner)
  | .repeatedScalar kind, nullable, place, col => do
    let list ← castList text place col
    checkNulls nullable place col
    checkType text (place ++ " values") kind list.values
    pure (.repeatedScalar list)
  | .repeatedStruct cls fields, nullable, place, col => do
    let list ← castList text place col
    checkNulls nullable place col
    let structs ← castStruct text (place ++ " values") list.values
    let inner ← makeStructs (fun cols => columnsFrom cls fields 0 cols) cls fields structs
    pure (.lists list [] inner)
  | .map key value, nullable, place, col => do
    let map ← castMap text place col
    checkNulls nullable place col
    checkType text (place ++ " keys") key map.keys
    checkType text (place ++ " values") value map.items
    pure (.map map)
  | .mapStruct key cls fields, nullable, place, col => do
    let map ← castMap text place col
    checkNulls nullable place col
    checkType text (place ++ " keys") key map.keys
    let structs ← castStruct text (place ++ " values") map.items
    let inner ← makeStructs (fun cols => columnsFrom cls fields 0 cols) cls fields structs
    pure (.mapStruct map inner)
  | .nestedList depth cls fields, nullable, place, col => do
    let outer ← castList text place col
    checkNulls nullable place col
    let (levels, leaf) ← castLevels text place 2 (depth - 1) outer.values
    let structs ← castStruct text (place ++ " leaf") leaf
    let inner ← makeStructs (fun cols => columnsFrom cls fields 0 cols) cls fields structs
    pure (.lists outer levels inner)
  -- Never reached: `FromColumns_` has refused the class before.
  | .nestedScalars _ _, _, place, _ => .error (.invalid place)

/-- The checks of the columns from `i` on. -/
def columnsFrom (cls : String) : AccessorClass → Nat → List Column → Result (List (FieldOf Cached))
  | ⟨name, kind, nullable⟩ :: fields, i, col :: cols => do
    let handle ← fieldFromColumns kind nullable (columnPlace cls i name) col
    let rest ← columnsFrom cls fields (i + 1) cols
    pure (⟨name, handle, nullable⟩ :: rest)
  | _, _, _ => pure []

end

/-- `arrow::RecordBatch`. -/
structure RecordBatch where
  schema : Schema
  numRows : Nat
  columns : List Column

/-- What `Make` is given. -/
inductive Source where
  | batch (b : RecordBatch)
  | structs (a : StructArray)

/-- `Make` of the class `cls` with the fields `fields`. -/
def make (cls : String) (fields : AccessorClass) : Source → Result Accessor
  | .batch b => fromColumns (columnsFrom text cls fields 0) cls fields b.numRows b.columns
  | .structs a => makeStructs (columnsFrom text cls fields 0) cls fields a

end Make

namespace Source

def numRows : Source → Nat
  | .batch b => b.numRows
  | .structs a => a.length

/-- `columns()`, and `field(i)` for every `i`. -/
def columns : Source → List Column
  | .batch b => b.columns
  | .structs a => a.columns

/-- The struct array whose validity the rows have. A batch has none. -/
def validity : Source → Option StructArray
  | .batch _ => none
  | .structs a => some a

/-- `is_null(row)` of the source: only a struct array has rows that are null. -/
def isNull : Source → Nat → Bool
  | .batch _, _ => false
  | .structs a, row => a.isNull row

/-- The values Arrow assigns to the fields of a row. -/
def rowAt (source : Source) (row : Nat) : Row := source.columns.map fun c => c.valueAt row

/-- What Arrow guarantees of a batch and of a struct array. -/
def WellFormed : Source → Prop
  | .batch b => ∀ c ∈ b.columns, c.WellFormed ∧ c.length = b.numRows
  | .structs a => a.column.WellFormed

end Source

/-! ## Reading -/

/-- What a getter or a span hands out. -/
inductive View where
  /-- `std::nullopt`. -/
  | nullopt
  | value (v : Value)
  /-- A scalar list element or map value: `is_null(i)` and what `operator[](i)` reads. -/
  | element (isNull : Bool) (v : Value)
  /-- `RowView`. -/
  | row (acc : Accessor) (row : Nat)
  /-- `ScalarSpan`. -/
  | scalarSpan (values : Column) (base len : Nat)
  /-- `StructSpan`, and `NestedStructSpan` with its list levels from the outside in. -/
  | structSpan (levels : List ListArray) (leaf : Accessor) (base len : Nat)
  /-- `ScalarMapSpan`. -/
  | scalarMapSpan (keys values : Column) (base len : Nat)
  /-- `StructMapSpan`. -/
  | structMapSpan (keys : Column) (values : Accessor) (base len : Nat)

/-- `IsNull(row)` of the handle that has a field's validity. -/
def Cached.isNull : Cached → Nat → Bool
  | .scalar values, row => values.isNull row
  | .struct structs _, row => structs.isNull row
  | .repeatedScalar list, row => list.isNull row
  | .lists outer _ _, row => outer.isNull row
  | .map m, row => m.isNull row
  | .mapStruct m _, row => m.isNull row

/-- The body of a getter behind its null test. -/
def Cached.read : Cached → Nat → View
  | .scalar values, row => .value (values.value row)
  | .struct _ inner, row => .row inner row
  | .repeatedScalar list, row =>
    .scalarSpan list.values (list.valueOffset row) (list.valueLength row)
  | .lists outer levels leaf, row =>
    .structSpan levels leaf (outer.valueOffset row) (outer.valueLength row)
  | .map m, row => .scalarMapSpan m.keys m.items (m.valueOffset row) (m.valueLength row)
  | .mapStruct m inner, row => .structMapSpan m.keys inner (m.valueOffset row) (m.valueLength row)

/-- `EmitFieldGetter`: the getter of a field. -/
def getField (f : FieldOf Cached) (row : Nat) : View :=
  if f.nullable && f.type.isNull row then .nullopt else f.type.read row

/-- A struct element at its absolute index. -/
def structElement (acc : Accessor) (index : Nat) : View :=
  if acc.isNull index then .nullopt else .row acc index

/-- An element of a `StructSpan` or `NestedStructSpan` at its absolute index. -/
def spanElement (leaf : Accessor) : List ListArray → Nat → View
  | [], index => structElement leaf index
  | lists :: levels, index =>
    if lists.isNull index then .nullopt
    else .structSpan levels leaf (lists.valueOffset index) (lists.valueLength index)

/-- A call on a view. -/
inductive Access where
  | field (k : Nat)
  | element (i : Nat)
  | key (i : Nat)
  | value (i : Nat)
  deriving DecidableEq, Repr

/-- What a call returns. There is none of that name on the view, or its index is out of
range, where this is `none`. -/
def View.follow : View → Access → Option View
  | .row acc r, .field k => acc.cached[k]?.map fun f => getField f r
  | .scalarSpan values base len, .element i =>
    if i < len then some (.element (values.isNull (base + i)) (values.value (base + i))) else none
  | .structSpan levels leaf base len, .element i =>
    if i < len then some (spanElement leaf levels (base + i)) else none
  | .scalarMapSpan keys _ base len, .key i =>
    if i < len then some (.value (keys.value (base + i))) else none
  | .scalarMapSpan _ values base len, .value i =>
    if i < len then some (.element (values.isNull (base + i)) (values.value (base + i))) else none
  | .structMapSpan keys _ base len, .key i =>
    if i < len then some (.value (keys.value (base + i))) else none
  | .structMapSpan _ values base len, .value i =>
    if i < len then some (structElement values (base + i)) else none
  | _, _ => none

/-- A chain of calls. -/
def View.walk : View → List Access → Option View
  | view, [] => some view
  | view, a :: path =>
    match view.follow a with
    | some view' => view'.walk path
    | none => none

end Fletcher.Protoc

namespace Fletcher.Arrow

open Protoc

/-- The part of a value a call selects. -/
def Value.follow : Value → Access → Option Value
  | .struct vs, .field k => vs[k]?
  | .list vs, .element i => vs[i]?
  | .map ks _, .key i => ks[i]?
  | .map _ vs, .value i => vs[i]?
  | _, _ => none

/-- The value Arrow assigns to a path. -/
def Value.walk : Value → List Access → Option Value
  | v, [] => some v
  | v, a :: path =>
    match v.follow a with
    | some v' => v'.walk path
    | none => none

end Fletcher.Arrow
