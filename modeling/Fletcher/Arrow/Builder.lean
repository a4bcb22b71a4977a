import Fletcher.Arrow.Array
import Fletcher.Lib.Lists

/-!
# Arrow builders

`arrow::ArrayBuilder` as a tree of growing buffers, with the calls the batch decoder makes on
it. `Finish` lays the buffers out as an array; a start that is not known before the next slot
begins, the end of the last list or string, is added there.

Filling is where builders differ most. A null or an empty value takes a slot in the builder
itself, and what it takes in the builders below depends on the layout: nothing under a list
or a map, a slot each under a struct, `list_size` slots under a fixed-size list, one slot in
every child of a sparse union. A dense union puts *one* element into its first child however
many slots it fills, and lets all of them point there.

The definitions say what a call does when its status is OK. Whether it is, is up to Arrow: a
`BinaryViewBuilder` refuses a view of `2^31` bytes, a list builder more elements than its offsets
reach, and any of them may run out of memory. `Api` has that as a parameter.
-/

namespace Fletcher.Arrow

open Lib

/-- The buffers of one builder; a layout leaves the ones it does not have empty. -/
structure Buffers where
  length : Nat := 0
  valid : List Bool := []
  bools : List Bool := []
  /-- Fixed-width values, or the bytes of a variable-length layout. -/
  values : Bytes := []
  /-- Where each slot starts; in a dense union, where its value is. Counted without a bound
  here, and cut down to what the layout stores when the array is made. -/
  offsets : List Nat := []
  views : List Bytes := []
  types : List UInt8 := []
  deriving DecidableEq, Repr

inductive Builder where
  | mk (own : Buffers) (children : List Builder)

namespace Builder

def own : Builder → Buffers
  | .mk o _ => o

def children : Builder → List Builder
  | .mk _ cs => cs

def empty : Builder := .mk {} []

def length (b : Builder) : Nat := b.own.length

/-- `child(k)`. -/
def child (k : Nat) (b : Builder) : Builder := b.children.getD k empty

def setChild (k : Nat) (c : Builder) (b : Builder) : Builder := .mk b.own (b.children.set k c)

@[simp] theorem own_mk (o : Buffers) (cs : List Builder) : (mk o cs).own = o := rfl

end Builder

/-- `n` slots, valid or null. -/
def Buffers.addSlots (n : Nat) (ok : Bool) (o : Buffers) : Buffers :=
  { o with length := o.length + n, valid := o.valid ++ List.replicate n ok }

/-- `n` slots of a union, which has no validity of its own. -/
def Buffers.addTypes (n : Nat) (code : UInt8) (o : Buffers) : Buffers :=
  { o with length := o.length + n, types := o.types ++ List.replicate n code }

def Buffers.addOffsets (n offset : Nat) (o : Buffers) : Buffers :=
  { o with offsets := o.offsets ++ List.replicate n offset }

/-- Whether the layout keeps its values as views. -/
def VarType.isView : VarType → Bool
  | .stringView | .binaryView => true
  | _ => false

/-! ## Nulls and empty values -/

/-- The code a union builder fills with: that of its first child. -/
def firstCode (codes : List UInt8) : UInt8 := codes.headD 0

/-- The child a union builder fills. -/
def firstChild (codes : List UInt8) : Option Nat := childId codes (firstCode codes)

/-- Every child filled with empty values, the target as the parent is. -/
def fillChildren (target : Option Nat) (ok : Bool) (n : Nat) :
    Nat → List (Bool → Nat → Builder → Builder) → List Builder → List Builder
  | k, f :: fs, c :: cs =>
    f (if target = some k then ok else true) n c :: fillChildren target ok n (k + 1) fs cs
  | _, _, _ => []

/-- The target alone, with one value. -/
def fillChild (target : Option Nat) (ok : Bool) (fs : List (Bool → Nat → Builder → Builder))
    (cs : List Builder) : List Builder :=
  match target with
  | some k =>
    match fs[k]? with
    | some f => cs.modify k (f ok 1)
    | none => cs
  | none => cs

mutual

/-- `n` slots without a value of their own: null ones, or empty ones when `ok`. -/
def fill : DataType → Bool → Nat → Builder → Builder
  | .bool, ok, n, .mk o cs =>
    .mk { o.addSlots n ok with bools := o.bools ++ List.replicate n false } cs
  | .fixed t, ok, n, .mk o cs =>
    .mk { o.addSlots n ok with values := o.values ++ List.replicate (n * t.width) 0 } cs
  | .var t, ok, n, .mk o cs =>
    if t.isView then .mk { o.addSlots n ok with views := o.views ++ List.replicate n [] } cs
    else .mk ((o.addSlots n ok).addOffsets n o.values.length) cs
  | .struct fields, ok, n, .mk o cs =>
    .mk (o.addSlots n ok) (fillChildren none ok n 0 (fills fields) cs)
  | .list _ _, ok, n, .mk o cs =>
    .mk ((o.addSlots n ok).addOffsets n (cs.getD 0 .empty).length) cs
  | .fixedSizeList ⟨_, t, _⟩ size, ok, n, .mk o cs =>
    .mk (o.addSlots n ok) (cs.modify 0 (fill t ok (size * n)))
  | .map _ _ _, ok, n, .mk o cs =>
    .mk ((o.addSlots n ok).addOffsets n (cs.getD 0 .empty).length) cs
  | .union .sparse fields codes, ok, n, .mk o cs =>
    .mk (o.addTypes n (firstCode codes))
      (fillChildren (firstChild codes) ok n 0 (fills fields) cs)
  | .union .dense fields codes, ok, n, .mk o cs =>
    .mk ((o.addTypes n (firstCode codes)).addOffsets n
        (match firstChild codes with
          | some k => (cs.getD k .empty).length
          | none => 0))
      (fillChild (firstChild codes) ok (fills fields) cs)
  | _, _, _, b => b

/-- The filler of each field's type. -/
def fills : List Field → List (Bool → Nat → Builder → Builder)
  | [] => []
  | ⟨_, t, _⟩ :: fs => fill t :: fills fs

end

theorem fills_eq_map : ∀ fields, fills fields = fields.map (fun f => fill f.type)
  | [] => rfl
  | ⟨_, t, _⟩ :: fs => by rw [fills, fills_eq_map fs]; rfl

/-- `AppendNulls`; one of them is `AppendNull`. -/
def appendNulls (t : DataType) (n : Nat) : Builder → Builder := fill t false n

/-! ## Values -/

namespace Builder

/-- `BooleanBuilder::AppendValues`, a byte for each value. -/
def appendBools (bytes : Bytes) : Builder → Builder
  | .mk o cs =>
    .mk { o.addSlots bytes.length true with bools := o.bools ++ bytes.map (· != 0) } cs

/-- `count` values of a fixed width, back to back. -/
def appendFixed (bytes : Bytes) (count : Nat) : Builder → Builder
  | .mk o cs => .mk { o.addSlots count true with values := o.values ++ bytes } cs

/-- `Append` of the variable-length layouts. -/
def appendBinary (t : VarType) (data : Bytes) : Builder → Builder
  | .mk o cs =>
    if t.isView then .mk { o.addSlots 1 true with views := o.views ++ [data] } cs
    else
      .mk { (o.addSlots 1 true).addOffsets 1 o.values.length with values := o.values ++ data } cs

/-- `StructBuilder::Append(true)` and `FixedSizeListBuilder::Append()`. -/
def appendSlot : Builder → Builder
  | .mk o cs => .mk (o.addSlots 1 true) cs

/-- `ListBuilder::Append(true)` and `MapBuilder::Append()`: the slot starts where the first
child ends. -/
def appendStart : Builder → Builder
  | .mk o cs => .mk ((o.addSlots 1 true).addOffsets 1 (cs.getD 0 .empty).length) cs

/-- `SparseUnionBuilder::Append(code)`. -/
def appendSparse (code : UInt8) : Builder → Builder
  | .mk o cs => .mk (o.addTypes 1 code) cs

/-- `DenseUnionBuilder::Append(code)` for the child of the code. -/
def appendDense (code : UInt8) (k : Nat) : Builder → Builder
  | .mk o cs => .mk ((o.addTypes 1 code).addOffsets 1 (cs.getD k .empty).length) cs

end Builder

/-! ## Making and finishing -/

mutual

/-- `MakeBuilder`. -/
def makeBuilder : DataType → Builder
  | .struct fields => .mk {} (makeBuilders fields)
  | .list _ ⟨_, t, _⟩ => .mk {} [makeBuilder t]
  | .fixedSizeList ⟨_, t, _⟩ _ => .mk {} [makeBuilder t]
  | .map ⟨_, kt, _⟩ ⟨_, vt, _⟩ _ => .mk {} [makeBuilder kt, makeBuilder vt]
  | .union _ fields _ => .mk {} (makeBuilders fields)
  | _ => .mk {} []

def makeBuilders : List Field → List Builder
  | [] => []
  | ⟨_, t, _⟩ :: fs => makeBuilder t :: makeBuilders fs

end

theorem makeBuilders_eq_map : ∀ fields, makeBuilders fields =
    fields.map (fun f => makeBuilder f.type)
  | [] => rfl
  | ⟨_, t, _⟩ :: fs => by rw [makeBuilders, makeBuilders_eq_map fs]; rfl

theorem makeBuilder_length (t : DataType) : (makeBuilder t).length = 0 := by
  cases t with
  | _ => rfl

/-- What an `int32_t` makes of a count. -/
def int32 (n : Nat) : Int := Int.bmod n (2 ^ 32)

/-- The window of a finished array. -/
def Buffers.slots (o : Buffers) : Slots := ⟨o.length, 0, some o.valid⟩

mutual

/-- The array `Finish` returns. -/
def finish : DataType → Builder → ArrayData
  | .bool, .mk o _ => .bool o.slots o.bools
  | .fixed _, .mk o _ => .fixed o.slots o.values
  | .var t, .mk o _ =>
    if t.isView then .view o.slots o.views
    else .binary o.slots (o.offsets ++ [o.values.length]) o.values
  | .struct fields, .mk o cs =>
    .struct o.slots (List.zipWith (fun f c => f c) (finishes fields) cs)
  | .list _ ⟨_, t, _⟩, .mk o cs =>
    .list o.slots (o.offsets ++ [(cs.getD 0 .empty).length]) (finish t (cs.getD 0 .empty))
  | .fixedSizeList ⟨_, t, _⟩ _, .mk o cs =>
    .fixedSizeList o.slots (finish t (cs.getD 0 .empty))
  | .map ⟨_, kt, _⟩ ⟨_, vt, _⟩ _, .mk o cs =>
    .map o.slots (o.offsets ++ [(cs.getD 0 .empty).length]) (finish kt (cs.getD 0 .empty))
      (finish vt (cs.getD 1 .empty))
  | .union .sparse fields _, .mk o cs =>
    .sparseUnion ⟨o.length, 0, none⟩ o.types
      (List.zipWith (fun f c => f c) (finishes fields) cs)
  | .union .dense fields _, .mk o cs =>
    .denseUnion ⟨o.length, 0, none⟩ o.types (o.offsets.map int32)
      (List.zipWith (fun f c => f c) (finishes fields) cs)
  | _, .mk o _ => .bool o.slots o.bools

/-- The same for a builder of each field's type. -/
def finishes : List Field → List (Builder → ArrayData)
  | [] => []
  | ⟨_, t, _⟩ :: fs => finish t :: finishes fs

end

theorem finishes_eq_map : ∀ fields, finishes fields = fields.map (fun f => finish f.type)
  | [] => rfl
  | ⟨_, t, _⟩ :: fs => by rw [finishes, finishes_eq_map fs]; rfl

/-! ## What is limited -/

/-- The types of a node's children. -/
def childTypes : DataType → List DataType
  | .struct fields | .union _ fields _ => fields.map FieldOf.type
  | .list _ item | .fixedSizeList item _ => [item.type]
  | .map key item _ => [key.type, item.type]
  | _ => []

/-- The limit of every 32-bit offset: `memory_limit()`, `maximum_elements()` and
`INT32_MAX - 1` are one number. -/
def kBuilderLimit : Nat := 2 ^ 31 - 2

/-- What a builder of the type addresses with 32-bit offsets. -/
def extents : DataType → Builder → List Nat
  | .var .string, b | .var .binary, b => [b.own.values.length]
  | .list .list _, b => [(b.child 0).length]
  | .map _ _ _, b => [(b.child 0).length, (b.child 1).length]
  | .union .dense fields _, b => (List.range fields.length).map fun k => (b.child k).length
  | _, _ => []

/-- The type of the node at the path. -/
def typeAt : DataType → List Nat → Option DataType
  | t, [] => some t
  | t, k :: path => (childTypes t)[k]?.bind fun c => typeAt c path

/-- The builder of the node at the path. -/
def below : List Nat → Builder → Builder
  | [], b => b
  | k :: path, b => below path (b.child k)

/-- No builder at any depth has more than its offsets can address. -/
def WithinLimits (t : DataType) (b : Builder) : Prop :=
  ∀ path n, typeAt t path = some n → ∀ x ∈ extents n (below path b), x ≤ kBuilderLimit

/-- A node is the root or below a child of it. -/
theorem forall_typeAt_iff {t : DataType} {P : List Nat → DataType → Prop} :
    (∀ path n, typeAt t path = some n → P path n) ↔ P [] t ∧ ∀ k ct, (childTypes t)[k]? = some ct →
        ∀ path n, typeAt ct path = some n → P (k :: path) n := by
  constructor
  · intro h
    refine ⟨h [] t rfl, ?_⟩
    intro k ct hct path n hn
    refine h (k :: path) n ?_
    rw [typeAt, hct]
    exact hn
  · intro h path n hn
    cases path with
    | nil =>
      cases hn
      exact h.1
    | cons k path =>
      rw [typeAt, Option.bind_eq_some_iff] at hn
      obtain ⟨ct, hct, hn⟩ := hn
      exact h.2 k ct hct path n hn

theorem withinLimits_iff {t : DataType} {b : Builder} :
    WithinLimits t b ↔ (∀ x ∈ extents t b, x ≤ kBuilderLimit) ∧
      ∀ k ct, (childTypes t)[k]? = some ct → WithinLimits ct (b.child k) := forall_typeAt_iff

/-! ## The rest of Arrow -/

/-- The calls of the batch decoder on a builder. -/
inductive BuilderCall where
  | append (t : DataType) (data : Bytes)
  | appendRun (t : DataType) (count : Nat)
  | appendNulls (t : DataType) (n : Nat)
  | appendStruct
  | appendList (t : DataType)
  | appendMap
  | appendUnion (mode : UnionMode) (code : UInt8)
  | finish (t : DataType)

/-- What the bridge asks of Arrow beyond reading arrays. A `none` is an OK status,
`some text` the text of a failed one. -/
structure Api where
  /-- `DataType::ToString`. -/
  toString : DataType → String
  /-- `DataType::Equals`. -/
  equals : DataType → DataType → Bool
  /-- `Array::Validate` on an array of the type. -/
  validate : DataType → ArrayData → Option String
  /-- `MakeBuilder` for the type. -/
  makeBuilder : DataType → Option String
  /-- `AppendNull` on a builder of the type. -/
  appendNull : DataType → Option String
  /-- `AppendScalar` of a value on a builder of the type. -/
  appendScalar : DataType → Value → Option String
  /-- A call of the batch decoder on a builder. -/
  builder : BuilderCall → Builder → Option String
  /-- What is left of a column of the builders once a call on one of them has failed, the row
  given. No interface says. -/
  remains : Builder → Bytes → Nat → Builder

/-- What Arrow documents about those calls. -/
structure Api.Lawful (A : Api) : Prop where
  /-- A type equals itself. -/
  equals_self : ∀ t, A.equals t t = true
  /-- A well-formed array validates. -/
  validate_ok : ∀ t a, a.Valid t → A.validate t a = none
  /-- Every layout the bridge carries has a builder. -/
  makeBuilder_ok : ∀ t, t.supported = true → A.makeBuilder t = none
  /-- A builder takes a null. -/
  appendNull_ok : ∀ t, t.supported = true → A.appendNull t = none
  /-- A builder takes a scalar of its own type. Arrow's string and binary builders stop at
  `2^31 - 2` bytes: results under this law are about values below that. -/
  appendScalar_ok : ∀ t v, t.supported = true → HasType t v → A.appendScalar t v = none

/-- The implementation in which every call succeeds. -/
def Api.permissive : Api where
  toString _ := ""
  equals _ _ := true
  validate _ _ := none
  makeBuilder _ := none
  appendNull _ := none
  appendScalar _ _ := none
  builder _ _ := none
  remains root _ k := root.child k

theorem Api.permissive_lawful : Api.permissive.Lawful :=
  ⟨fun _ => rfl, fun _ _ _ => rfl, fun _ _ => rfl, fun _ _ => rfl, fun _ _ _ _ => rfl⟩

end Fletcher.Arrow
