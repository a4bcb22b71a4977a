import Fletcher.Arrow.Builder
import Fletcher.Bridge.Codec
import Fletcher.Lib.Act
import Fletcher.Lib.Transition

/-!
# The batch decoder

`BatchDecoder` decodes rows straight into Arrow builders. A row is walked twice by one
template: `SkipSink` validates it and sums up what it would add to every builder with 32-bit
offsets, and only if all of it is well formed and fits does `AppendSink` walk it again, into
the builders. The template is `walkValue`, over a `Sink`; the sinks say what a node's state
is and what each call does to it.

`pending`, the scratch of the skip pass, is kept per node, by its path from the root. `Append`
sets it to zero for the nodes `CollectBudgeted` found; what a pass that throws leaves in it
is zeroed by the next one before it is read, and is not kept here.

What a call does to a builder is Arrow's, and so is whether it succeeds: `Api.builder` is its
status. A failed one is thrown as a `std::runtime_error`, by `Append` out of the middle of a row
and by `Finish` out of the middle of the columns, and the header calls what is then in the
builders undefined. Here it is `Api.remains`, of which nothing is known.
-/

namespace Fletcher.Bridge.Batch

open Lib Arrow

inductive BatchError where
  | invalidArgument (what : String)
  /-- `BatchCapacityExceeded`. -/
  | capacityExceeded (what : String)
  | runtimeError (what : String)
  /-- The `std::runtime_error` of a builder's failed status. -/
  | builderFailed (what : String)
  deriving DecidableEq, Repr

def BatchError.isCapacity : BatchError → Bool
  | .capacityExceeded _ => true
  | _ => false

def BatchError.isBuilder : BatchError → Bool
  | .builderFailed _ => true
  | _ => false

/-! ## The reader -/

abbrev Wire := Reader BatchError

def underrun : BatchError := .invalidArgument "fletcher: buffer underrun"

def readBytes (n : Nat) : Wire Bytes := Reader.take underrun n

def readU32 : Wire Nat := do
  let bs ← readBytes 4
  pure (ofLe bs)

def readByte : Wire UInt8 := do
  let bs ← readBytes 1
  pure (bs.getD 0 0)

/-- `AllNull`: whole bytes first, then the bits of the last one. -/
def allNull (bitfield : Bytes) (count : Nat) : Bool :=
  (bitfield.take (count / 8)).all (· == 255) &&
    (count % 8 == 0 ||
      (bitfield.getD (count / 8) 0).toNat &&& (2 ^ (count % 8) - 1) == 2 ^ (count % 8) - 1)

/-! ## The traversal -/

/-- What a pass keeps per node, and its calls. -/
structure Sink (σ : Type) where
  child : Nat → σ → σ
  setChild : Nat → σ → σ → σ
  scalar : DataType → σ → Wire σ
  run : DataType → Bytes → Nat → σ → Except BatchError σ
  null : DataType → σ → Except BatchError σ
  nulls : DataType → Nat → σ → Except BatchError σ
  structBegin : σ → Except BatchError σ
  listBegin : DataType → Nat → σ → Except BatchError σ
  mapBegin : Nat → σ → Except BatchError σ
  unionBegin : UnionMode → List Field → UInt8 → Nat → σ → Except BatchError σ
  rowEnd : Wire Unit

section Walk

variable {σ : Type} (S : Sink σ)

/-- A slot of the type under its null bit. -/
def walkSlot (t : DataType) (walk : σ → Wire σ) (flag : Bool) (s : σ) : Wire σ :=
  if flag then Reader.lift (S.null t s) else walk s

/-- The elements behind the bitfield of a list that has some: one run, one call for the
nulls, or element after element. -/
def walkRun (elem : DataType) (walk : σ → Wire σ) (bitfield : Bytes) (count : Nat) (s : σ) :
    Wire σ :=
  if 0 < fixedWidth elem && allValid bitfield then do
    let left ← Reader.remaining
    Reader.require (.invalidArgument "BatchDecoder: list payload exceeds remaining buffer")
      (count ≤ left / fixedWidth elem)
    let bytes ← readBytes (count * fixedWidth elem)
    Reader.lift (S.run elem bytes count s)
  else if allNull bitfield count then Reader.lift (S.nulls elem count s)
  else Reader.thread ((nullFlags bitfield count).map fun flag => walkSlot S elem walk flag) s

/-- `WalkElements`. -/
def walkElements (list elem : DataType) (walk : σ → Wire σ) (count : Nat) (s : σ) : Wire σ := do
  let bitfield ← readBytes (bitfieldBytes count)
  let s ← Reader.lift (S.listBegin list count s)
  if count = 0 then pure s
  else do
    let c ← walkRun S elem walk bitfield count (S.child 0 s)
    pure (S.setChild 0 c s)

/-- The children of a struct, or the columns of a row, from the `k`th on. -/
def walkFields : Nat → List (Bool → σ → Wire σ) → List Bool → σ → Wire σ
  | k, walk :: walks, flag :: flags, s => do
    let c ← walk flag (S.child k s)
    walkFields (k + 1) walks flags (S.setChild k c s)
  | _, _, _, s => pure s

/-- The entries of a map: the keys, the bitfield and the items. -/
def walkEntries (item : DataType) (walkKey walkItem : σ → Wire σ) (count : Nat) (s : σ) :
    Wire σ := do
  let keys ← Reader.thread (List.replicate count walkKey) (S.child 0 s)
  let bitfield ← readBytes (bitfieldBytes count)
  let items ← Reader.thread
    ((nullFlags bitfield count).map fun flag => walkSlot S item walkItem flag)
    (S.child 1 (S.setChild 0 keys s))
  pure (S.setChild 1 items (S.setChild 0 keys s))

/-- The active child of a union. -/
def walkChild (walks : List (Bool → σ → Wire σ)) (k : Nat) (s : σ) : Wire σ :=
  match walks[k]? with
  | some walk => do
    let c ← walk false (S.child k s)
    pure (S.setChild k c s)
  | none => Reader.fail (.invalidArgument "BatchDecoder: unknown union type_code")

mutual

/-- `WalkValue`. -/
def walkValue : DataType → σ → Wire σ
  | .struct fields, s => do
    let bitfield ← readBytes (bitfieldBytes fields.length)
    let s ← Reader.lift (S.structBegin s)
    walkFields S 0 (walkers fields) (nullFlags bitfield fields.length) s
  | .list kind ⟨n, t, b⟩, s => do
    let count ← readU32
    let left ← Reader.remaining
    Reader.require
      (.invalidArgument "BatchDecoder: list element count exceeds remaining buffer")
      (bitfieldBytes count ≤ left)
    walkElements S (.list kind ⟨n, t, b⟩) t (walkValue t) count s
  | .fixedSizeList ⟨n, t, b⟩ size, s =>
    walkElements S (.fixedSizeList ⟨n, t, b⟩ size) t (walkValue t) size s
  | .map ⟨_, kt, _⟩ ⟨_, vt, _⟩ _, s => do
    let count ← readU32
    let left ← Reader.remaining
    Reader.require
      (.invalidArgument "BatchDecoder: map entry count exceeds remaining buffer")
      (count ≤ left)
    let s ← Reader.lift (S.mapBegin count s)
    walkEntries S vt (walkValue kt) (walkValue vt) count s
  | .union mode fields codes, s => do
    let code ← readByte
    match childId codes code with
    | none => Reader.fail (.invalidArgument "BatchDecoder: unknown union type_code")
    | some k => do
      let s ← Reader.lift (S.unionBegin mode fields code k s)
      walkChild S (walkers fields) k s
  | t, s => S.scalar t s

/-- The walk of each field's type. -/
def walkers : List Field → List (Bool → σ → Wire σ)
  | [] => []
  | ⟨_, t, _⟩ :: fs => walkSlot S t (walkValue t) :: walkers fs

end

theorem walkers_eq_map : ∀ fields, walkers S fields =
    fields.map (fun f => walkSlot S f.type (walkValue S f.type))
  | [] => rfl
  | ⟨_, t, _⟩ :: fs => by rw [walkers, walkers_eq_map fs]; rfl

/-- `WalkRow`, over a node whose children are the columns. -/
def walkRow (fields : List Field) (s : σ) : Wire σ := do
  let bitfield ← readBytes (bitfieldBytes fields.length)
  let s ← walkFields S 0 (walkers S fields) (nullFlags bitfield fields.length) s
  S.rowEnd
  pure s

end Walk

/-! ## The two passes -/

/-- What the skip pass would add to each node, by the node's path. -/
abbrev Pending := List Nat → Nat

def Pending.child (k : Nat) (p : Pending) : Pending := fun path => p (k :: path)

def Pending.setChild (k : Nat) (c p : Pending) : Pending
  | [] => p []
  | j :: path => if j = k then c path else p (j :: path)

def Pending.setOwn (n : Nat) (p : Pending) : Pending
  | [] => n
  | j :: path => p (j :: path)

/-- `count` more pending, on top of the `used` a builder has. -/
def budget (text : String) (used count : Nat) (s : Builder × Pending) :
    Except BatchError (Builder × Pending) :=
  if kBuilderLimit < used + (s.2 [] + count) then .error (.capacityExceeded text)
  else .ok (s.1, s.2.setOwn (s.2 [] + count))

/-- `SkipSink::Scalar`. -/
def skipScalar (t : DataType) (s : Builder × Pending) : Wire (Builder × Pending) :=
  if 0 < fixedWidth t then do
    let _ ← readBytes (fixedWidth t)
    pure s
  else do
    let len ← readU32
    let _ ← readBytes len
    match t with
    | .var .string | .var .binary => Reader.lift (budget
      "BatchDecoder: utf8/binary column would exceed Arrow's builder limit (2^31-2 bytes)"
      s.1.own.values.length len s)
    | _ => pure s

/-- `SkipSink`: nothing is written to the builders. -/
def skipSink : Sink (Builder × Pending) where
  child k s := (s.1.child k, s.2.child k)
  setChild k c s := (s.1, Pending.setChild k c.2 s.2)
  scalar := skipScalar
  run _ _ _ s := .ok s
  null _ s := .ok s
  nulls _ _ s := .ok s
  structBegin s := .ok s
  listBegin t count s :=
    match t with
    | .list .list _ => budget
      "BatchDecoder: list column would exceed Arrow's builder limit (2^31-2 elements)"
      (s.1.child 0).length count s
    | _ => .ok s
  mapBegin count s := budget
    "BatchDecoder: map column would exceed Arrow's builder limit (2^31-2 entries)"
    (s.1.child 1).length count s
  unionBegin mode _ _ k s :=
    match mode with
    | .dense => budget
      "BatchDecoder: dense union child would exceed Arrow's builder limit (2^31-2 elements)"
      (s.1.child k).length 1 s
    | .sparse => .ok s
  rowEnd := do
    let left ← Reader.remaining
    Reader.require (.invalidArgument ("BatchDecoder: buffer not fully consumed (" ++
      toString left ++ " trailing byte(s)); does not match schema")) (left == 0)

variable (A : Api)

/-- A call that leaves the builder as `b'`, its status under `ThrowInternal`. -/
def attempt (operation : String) (call : BuilderCall) (b b' : Builder) :
    Except BatchError Builder :=
  match A.builder call b with
  | none => .ok b'
  | some st => .error (.builderFailed (operation ++ ": " ++ st))

/-- The types a `FixedSizeBinaryBuilder` builds. -/
def isFixedSizeBinary : FixedType → Bool
  | .decimal128 _ _ | .decimal256 _ _ | .fixedSizeBinary _ => true
  | _ => false

/-- `AppendSink::Scalar`. -/
def appendScalar (t : DataType) (b : Builder) : Wire Builder :=
  match t with
  | .bool => do
    let v ← readByte
    Reader.lift (attempt A "BatchDecoder: Append bool" (.append .bool [v]) b (b.appendBools [v]))
  | .fixed ft => do
    let bytes ← readBytes ft.width
    Reader.lift (attempt A (if isFixedSizeBinary ft then "BatchDecoder: Append fixed-size binary"
      else "BatchDecoder: Append fixed-width") (.append (.fixed ft) bytes) b
        (b.appendFixed bytes 1))
  | .var vt => do
    let len ← readU32
    let data ← readBytes len
    Reader.lift (attempt A (match vt with
        | .string | .binary => "BatchDecoder: Append binary"
        | .largeString | .largeBinary => "BatchDecoder: Append large binary"
        | .stringView | .binaryView => "BatchDecoder: Append binary view")
      (.append (.var vt) data) b (b.appendBinary vt data))
  | t => Reader.fail (.runtimeError ("BatchDecoder: unreachable scalar type " ++ A.toString t))

/-- `AppendRun` on a builder of the type. -/
def appendRun (t : DataType) (bytes : Bytes) (count : Nat) (b : Builder) :
    Except BatchError Builder :=
  match t with
  | .bool => attempt A "AppendRun: BooleanBuilder AppendValues failed" (.appendRun .bool count) b
    (b.appendBools bytes)
  | .fixed ft => attempt A (if isFixedSizeBinary ft then
        "AppendRun: FixedSizeBinaryBuilder AppendValues failed"
      else "AppendRun: builder Reserve failed") (.appendRun (.fixed ft) count) b
    (b.appendFixed bytes count)
  | t => .error (.runtimeError ("BatchDecoder: no run path for " ++ A.toString t))

/-- A null in every child of a sparse union but the active one. -/
def nullOthers (A : Api) (active : Nat) : Nat → List Field → List Builder →
    Except BatchError (List Builder)
  | k, f :: fs, c :: cs => do
    let c ← (if k = active then .ok c
      else attempt A "BatchDecoder: sparse union AppendNull" (.appendNulls f.type 1) c
        (appendNulls f.type 1 c))
    let cs ← nullOthers A active (k + 1) fs cs
    .ok (c :: cs)
  | _, _, _ => .ok []

/-- `AppendSink`. -/
def appendSink : Sink Builder where
  child := Builder.child
  setChild := Builder.setChild
  scalar := appendScalar A
  run := appendRun A
  null t b := attempt A "BatchDecoder: AppendNull" (.appendNulls t 1) b (appendNulls t 1 b)
  nulls t n b := attempt A "BatchDecoder: AppendNulls" (.appendNulls t n) b (appendNulls t n b)
  structBegin b := attempt A "BatchDecoder: StructBuilder::Append" .appendStruct b b.appendSlot
  listBegin t _ b :=
    match t with
    | .list .list _ => attempt A "BatchDecoder: ListBuilder::Append" (.appendList t) b b.appendStart
    | .list .largeList _ =>
      attempt A "BatchDecoder: LargeListBuilder::Append" (.appendList t) b b.appendStart
    | .fixedSizeList _ _ =>
      attempt A "BatchDecoder: FixedSizeListBuilder::Append" (.appendList t) b b.appendSlot
    | _ => .error (.runtimeError "BatchDecoder: unreachable list type")
  mapBegin _ b := attempt A "BatchDecoder: MapBuilder::Append" .appendMap b b.appendStart
  unionBegin mode fields code k b :=
    match mode with
    | .dense => attempt A "BatchDecoder: DenseUnionBuilder::Append" (.appendUnion .dense code) b
      (b.appendDense code k)
    | .sparse => do
      let b ← attempt A "BatchDecoder: SparseUnionBuilder::Append" (.appendUnion .sparse code) b
        (b.appendSparse code)
      let children ← nullOthers A k 0 fields b.children
      .ok (.mk b.own children)
  rowEnd := pure ()

/-! ## The decoder -/

/-- The type a top-level column is built in. -/
def buildType : DataType → DataType
  | .dictionary _ t _ => t
  | t => t

def buildFields (schema : Schema) : List Field :=
  schema.map fun f => ⟨f.name, buildType f.type, f.nullable⟩

/-- `CollectBudgeted`: the types with 32-bit offsets. -/
def budgeted : DataType → Bool
  | .var .string | .var .binary | .list .list _ | .map _ _ _ | .union .dense _ _ => true
  | _ => false

/-- Whether the node at the path has 32-bit offsets. -/
def budgetedAt : DataType → List Nat → Bool
  | t, [] => budgeted t
  | t, k :: path =>
    match (childTypes t)[k]? with
    | some c => budgetedAt c path
    | none => false

structure BatchDecoder where
  schema : Schema
  /-- One builder per field, as the children of one node. -/
  root : Builder
  pending : Pending
  rows : Nat

namespace BatchDecoder

def fields (d : BatchDecoder) : List Field := buildFields d.schema

/-- `pending` with every budgeted node at zero. -/
def clearPending (d : BatchDecoder) : Pending := fun path =>
  if budgetedAt (.struct d.fields) path then 0 else d.pending path

/-- The validating pass. -/
def skipRow (d : BatchDecoder) : Wire (Builder × Pending) :=
  walkRow skipSink d.fields (d.root, d.clearPending)

/-- The appending pass. -/
def appendRow (A : Api) (d : BatchDecoder) : Wire Builder :=
  walkRow (appendSink A) d.fields d.root

/-- The columns a failed call leaves behind. -/
def remains (A : Api) (root : Builder) (buf : Bytes) : Builder :=
  .mk root.own ((List.range root.children.length).map (A.remains root buf))

/-- `Append`. -/
def append (A : Api) (buf : Bytes) : Act BatchDecoder BatchError Unit := fun d =>
  match d.skipRow buf with
  | .error e => (.error e, { d with pending := d.clearPending })
  | .ok (skipped, _) =>
    match d.appendRow A buf with
    | .error e => (.error e, { d with root := remains A d.root buf, pending := skipped.2 })
    | .ok (root, _) => (.ok (), { d with root, pending := skipped.2, rows := d.rows + 1 })

end BatchDecoder

/-! ### Construction -/

/-- `IsNestedType`. -/
def isNestedType : DataType → Bool
  | .struct _ | .list _ _ | .fixedSizeList _ _ | .map _ _ _ | .union _ _ _
  | .dictionary _ _ _ => true
  | _ => false

/-- The guard at the end of `BuildNode`. -/
def checkBuilder (t : DataType) : Except BatchError Unit :=
  if A.equals t t then .ok ()
  else .error (.runtimeError
    ("BatchDecoder: builder type " ++ A.toString t ++ " != " ++ A.toString t))

mutual

/-- `BuildNode`, as far as it can throw. -/
def buildNode (A : Api) : DataType → String → Except BatchError Unit
  | .struct fields, _ => do
    buildNodes A fields
    checkBuilder A (.struct fields)
  | .list kind ⟨n, t, b⟩, name => do
    buildNode A t name
    checkBuilder A (.list kind ⟨n, t, b⟩)
  | .fixedSizeList ⟨n, t, b⟩ size, name => do
    buildNode A t name
    checkBuilder A (.fixedSizeList ⟨n, t, b⟩ size)
  | .map ⟨kn, kt, kb⟩ ⟨vn, vt, vb⟩ sorted, name => do
    buildNode A kt name
    buildNode A vt name
    checkBuilder A (.map ⟨kn, kt, kb⟩ ⟨vn, vt, vb⟩ sorted)
  | .union mode fields codes, _ => do
    buildNodes A fields
    checkBuilder A (.union mode fields codes)
  | .dictionary index t ordered, name =>
    .error (.invalidArgument ("BatchDecoder: field '" ++ name ++ "' has unsupported type " ++
      A.toString (.dictionary index t ordered)))
  | .unsupported type, name =>
    .error (.invalidArgument ("BatchDecoder: field '" ++ name ++ "' has unsupported type " ++
      A.toString (.unsupported type)))
  | t, _ => checkBuilder A t

def buildNodes (A : Api) : List Field → Except BatchError Unit
  | [] => .ok ()
  | ⟨name, t, _⟩ :: fs => do
    buildNode A t name
    buildNodes A fs

end

/-- The checks on a dictionary column. -/
def checkDictionary (f : Field) : Except BatchError Unit :=
  match f.type with
  | .dictionary _ value ordered =>
    if ordered then
      .error (.invalidArgument ("BatchDecoder: field '" ++ f.name ++
        "' is an ordered dictionary; the re-fold cannot preserve order"))
    else if isNestedType value || (match value with | .fixed .halfFloat => true | _ => false) then
      .error (.invalidArgument ("BatchDecoder: field '" ++ f.name ++
        "' has unsupported dictionary value type " ++ A.toString value))
    else .ok ()
  | _ => .ok ()

/-- One field of the constructor. -/
def buildField (f : Field) : Except BatchError Unit := do
  checkDictionary A f
  match A.makeBuilder (buildType f.type) with
  | some st => .error (.invalidArgument ("BatchDecoder: MakeBuilder: " ++ st))
  | none => buildNode A (buildType f.type) f.name

/-- The builders and counters of a decoder without rows. -/
def BatchDecoder.fresh (schema : Schema) : BatchDecoder where
  schema := schema
  root := .mk {} (makeBuilders (buildFields schema))
  pending := fun _ => 0
  rows := 0

/-- The constructor. -/
def BatchDecoder.build (schema : Schema) : Except BatchError BatchDecoder := do
  schema.forM (buildField A)
  .ok (.fresh schema)

/-! ### Batches -/

structure RecordBatch where
  schema : Schema
  numRows : Nat
  columns : List ArrayData

/-- The compute kernels `Finish` uses, a failed status as an error. -/
structure Compute where
  /-- `DictionaryEncode` of an array of the type, into a dictionary with 32-bit indices. -/
  dictionaryEncode : DataType → ArrayData → Except String ArrayData
  /-- `Cast` from one type to another. -/
  cast : DataType → DataType → ArrayData → Except String ArrayData

/-- How many entries an index of the type can tell apart. -/
def indexCapacity : FixedType → Nat
  | .int8 => 2 ^ 7
  | .int16 => 2 ^ 15
  | .int32 => 2 ^ 31
  | .int64 => 2 ^ 63
  | .uint8 => 2 ^ 8
  | .uint16 => 2 ^ 16
  | .uint32 => 2 ^ 32
  | .uint64 => 2 ^ 64
  | _ => 0

/-- Kernels that make every slot an entry of its own, and cast to an index type that can
tell the entries apart. -/
def Compute.plain : Compute where
  dictionaryEncode _ values :=
    .ok (.dictionary ⟨values.length, 0, none⟩ (List.range values.length) values)
  cast
    | _, .dictionary index _ _, .dictionary s indices values =>
      if values.length ≤ indexCapacity index then .ok (.dictionary s indices values)
      else .error "Invalid: Integer value out of bounds"
    | _, _, _ => .error "NotImplemented: Unsupported cast"

/-- What `DictionaryEncode` returns for values of the type. -/
def encodedType (value : DataType) : DataType := .dictionary .int32 value false

/-- A column as its field declares it: values of a dictionary field are folded again. -/
def refold (K : Compute) (t : DataType) (values : ArrayData) :
    Except BatchError ArrayData :=
  match t with
  | .dictionary index value ordered => do
    let encoded ← (K.dictionaryEncode value values).mapError fun st =>
      .runtimeError ("BatchDecoder: DictionaryEncode: " ++ st)
    if A.equals (encodedType value) (.dictionary index value ordered) then .ok encoded
    else (K.cast (encodedType value) (.dictionary index value ordered) encoded).mapError fun st =>
      .runtimeError ("BatchDecoder: Cast: " ++ st)
  | _ => .ok values

/-- The columns from the `k`th on. A builder is empty again once it is finished, whether or
not what follows succeeds. -/
def finishColumns (A : Api) (K : Compute) : List Field → Nat → Builder →
    Except BatchError (List ArrayData) × Builder
  | [], _, root => (.ok [], root)
  | f :: fs, k, root =>
    match A.builder (.finish (buildType f.type)) (root.child k) with
    | some st => (.error (.builderFailed ("BatchDecoder: Finish: " ++ st)),
        Builder.setChild k (A.remains root [] k) root)
    | none =>
      let reset := Builder.setChild k (makeBuilder (buildType f.type)) root
      match refold A K f.type (Arrow.finish (buildType f.type) (root.child k)) with
      | .error e => (.error e, reset)
      | .ok column =>
        match finishColumns A K fs (k + 1) reset with
        | (.error e, root) => (.error e, root)
        | (.ok columns, root) => (.ok (column :: columns), root)

/-- `Finish`. -/
def BatchDecoder.finish (K : Compute) : Act BatchDecoder BatchError RecordBatch :=
  fun d =>
    match finishColumns A K d.schema 0 d.root with
    | (.error e, root) => (.error e, { d with root })
    | (.ok columns, root) => (.ok ⟨d.schema, d.rows, columns⟩, { d with root, rows := 0 })

/-! ### Histories -/

/-- A call on a decoder. -/
inductive Call where
  | append (buf : Bytes)
  | finish
  deriving DecidableEq, Repr

namespace BatchDecoder

/-- What a call returns, a batch only from `Finish`. -/
def call (A : Api) (K : Compute) (d : BatchDecoder) :
    Call → Except BatchError (Option RecordBatch) × BatchDecoder
  | .append buf => ((d.append A buf).1.map fun _ => none, (d.append A buf).2)
  | .finish => ((d.finish A K).1.map some, (d.finish A K).2)

/-- The states of a decoder for the schema, whatever was called on it. -/
def Reached (A : Api) (K : Compute) (schema : Schema) (d : BatchDecoder) : Prop :=
  Reaches (fun d c => some (d.call A K c).2) (.fresh schema) d

theorem append_schema (A : Api) (d : BatchDecoder) (buf : Bytes) :
    (d.append A buf).2.schema = d.schema := by
  unfold append
  split
  · rfl
  · split <;> rfl

theorem finish_schema (A : Api) (K : Compute) (d : BatchDecoder) :
    (d.finish A K).2.schema = d.schema := by
  unfold finish
  split <;> rfl

/-- A decoder keeps its schema. -/
theorem Reached.schema_eq {A : Api} {K : Compute} {schema : Schema} {d : BatchDecoder}
    (h : Reached A K schema d) : d.schema = schema := by
  refine Reaches.preserves (P := fun d => d.schema = schema) ?_ rfl h
  intro d c _ hd hstep
  cases hstep
  cases c with
  | append buf => exact (append_schema A d buf).trans hd
  | finish => exact (finish_schema A K d).trans hd

end BatchDecoder

end Fletcher.Bridge.Batch
