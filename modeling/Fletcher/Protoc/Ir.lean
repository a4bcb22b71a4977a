import Fletcher.Core.WriteBuffer
import Fletcher.Lib.Reader
import Fletcher.Protoc.Descriptor

/-!
# The classifier

`BuildFieldIr` turns a proto field into the recursive intermediate
representation every emitter walks. The functions below are its branches, in the
source's order.

The recursion follows message references, and nothing but the recursion test
keeps it from following a cycle, so it is given fuel here: `Error.diverges` is a
classification that has not finished. The open parameter `build` of the branches
is the classifier itself, one message further down.

`LogicalKind` has the kinds the classifier produces. The source's enumeration has
more, as it has a fixed-size list node, and nothing builds either.
-/

namespace Fletcher.Protoc

open Lib Fletcher.Core

inductive LogicalKind where
  | bool
  | int32 | int64 | uint32 | uint64
  | float32 | float64
  | utf8 | binary
  | wktTimestamp | wktDuration
  deriving DecidableEq, Repr

/-- The facts of a field that an emitter reads. -/
structure FieldFacts where
  protoFullName : String := ""
  nullable : Bool := false
  deriving DecidableEq, Repr

inductive IrNode (n : Nat) where
  | scalar (facts : FieldFacts) (kind : LogicalKind)
  | list (facts : FieldFacts) (element : IrNode n)
  /-- A message, by identity, with the nodes of its fields. -/
  | struct (facts : FieldFacts) (descriptor : Fin n) (fields : List (IrNode n))
  | map (facts : FieldFacts) (key value : IrNode n)
  | unsupported (facts : FieldFacts) (reason : String)
  deriving Repr

variable {n : Nat}

namespace IrNode

def facts : IrNode n → FieldFacts
  | .scalar f _ | .list f _ | .struct f _ _ | .map f _ _ | .unsupported f _ => f

def nullable (node : IrNode n) : Bool := node.facts.nullable

/-- `inner_ir.facts.nullable = true`. -/
def setNullable : IrNode n → IrNode n
  | .scalar f k => .scalar { f with nullable := true } k
  | .list f e => .list { f with nullable := true } e
  | .struct f m fs => .struct { f with nullable := true } m fs
  | .map f k v => .map { f with nullable := true } k v
  | .unsupported f r => .unsupported { f with nullable := true } r

end IrNode

abbrev Gen := Except Error

/-- `BaseFacts`. -/
def baseFacts (f : FieldDescriptor n) : FieldFacts := { protoFullName := f.fullName }

/-- The facts of a singular field. -/
def singularFacts (f : FieldDescriptor n) : FieldFacts :=
  { protoFullName := f.fullName, nullable := f.isNullable }

def makeUnsupported (f : FieldDescriptor n) (reason : String) : IrNode n :=
  .unsupported (baseFacts f) reason

/-- `MakeListOf`, `levels` times. -/
def listLevels : Nat → IrNode n → IrNode n
  | 0, node => node
  | levels + 1, node => .list {} (listLevels levels node)

/-- The reason a dynamically typed well-known message has no mapping. -/
def dynamicWktUnsupportedReason (fullName : String) : Option String :=
  if fullName = "google.protobuf.Any" then
    some "google.protobuf.Any is dynamically typed and has no static Arrow mapping"
  else if fullName = "google.protobuf.Struct" then
    some "google.protobuf.Struct has a dynamic schema and cannot be mapped to Arrow"
  else none

/-- `PrimitiveKind`. Enums are stored as int32, and so is whatever has no case. -/
def primitiveKind : FieldType n → LogicalKind
  | .bool => .bool
  | .int32 | .sint32 | .sfixed32 => .int32
  | .int64 | .sint64 | .sfixed64 => .int64
  | .uint32 | .fixed32 => .uint32
  | .uint64 | .fixed64 => .uint64
  | .float => .float32
  | .double => .float64
  | .string => .utf8
  | .bytes => .binary
  | .enum => .int32
  | .group _ | .message _ => .int32

def isSupportedScalarType : FieldType n → Bool
  | .group _ | .message _ => false
  | _ => true

/-- The wrapped kind of a wrapper message. -/
def wrapperFor (fullName : String) : Option LogicalKind :=
  if fullName = "google.protobuf.BoolValue" then some .bool
  else if fullName = "google.protobuf.Int32Value" then some .int32
  else if fullName = "google.protobuf.Int64Value" then some .int64
  else if fullName = "google.protobuf.UInt32Value" then some .uint32
  else if fullName = "google.protobuf.UInt64Value" then some .uint64
  else if fullName = "google.protobuf.FloatValue" then some .float32
  else if fullName = "google.protobuf.DoubleValue" then some .float64
  else if fullName = "google.protobuf.StringValue" then some .utf8
  else if fullName = "google.protobuf.BytesValue" then some .binary
  else none

/-- `TryBuildWkt`: a well-known message that is a scalar. Wrappers are always nullable. -/
def tryBuildWkt (f : FieldDescriptor n) (fullName : String) : Option (IrNode n) :=
  if fullName = "google.protobuf.Timestamp" then some (.scalar (singularFacts f) .wktTimestamp)
  else if fullName = "google.protobuf.Duration" then some (.scalar (singularFacts f) .wktDuration)
  else
    (wrapperFor fullName).map fun kind =>
      .scalar { protoFullName := f.fullName, nullable := true } kind

section Branches

variable (pool : Pool n) (build : FieldDescriptor n → Gen (IrNode n))

/-- `MakeStructNode`, with the facts it is about to be given. -/
def makeStructNode (facts : FieldFacts) (m : Fin n) : Gen (IrNode n) := do
  let fields ← (pool m).fields.mapM build
  pure (.struct facts m fields)

def recursiveReason (m : Fin n) : String :=
  "message '" ++ (pool m).fullName ++ "' is recursive and cannot be represented in Arrow"

/-- A singular field whose message is a flatten wrapper takes its only field's type. -/
def buildFlattenedSingular (f : FieldDescriptor n) (m : Fin n) : Gen (IrNode n) :=
  match (pool m).fields with
  | [inner] => do
    let node ← build inner
    pure (if f.isNullable then node.setNullable else node)
  | _ => makeStructNode pool build (singularFacts f) m

/-- Where the walk down a chain of flatten wrappers ends. -/
inductive FlattenLeaf (n : Nat) where
  | unsupported
  /-- A scalar under this many list levels. -/
  | scalar (levels : Nat) (kind : LogicalKind)
  /-- A message, with this many repeated hops above it. -/
  | message (depth : Nat) (m : Fin n)

/-- The `while` loop of `BuildFlattenedRepeated`. -/
def flattenWalk : Nat → Nat → Fin n → Gen (FlattenLeaf n)
  | 0, _, _ => .error .diverges
  | fuel + 1, depth, current =>
    if (pool current).flatten then
      match (pool current).fields with
      | [inner] =>
        match inner.type with
        | .message m =>
          if inner.isRepeated then flattenWalk fuel (depth + 1) m
          else if (pool m).flatten then flattenWalk fuel depth m
          else .ok (.message depth m)
        | t =>
          if isSupportedScalarType t then
            -- The wrapper's own `repeated` is one more level.
            .ok (.scalar (if inner.isRepeated then depth + 2 else depth + 1) (primitiveKind t))
          else .ok .unsupported
      | _ => .ok (.message depth current)
    else .ok (.message depth current)

/-- The outermost node of a list carries the field's facts. -/
def withFacts (facts : FieldFacts) : IrNode n → IrNode n
  | .list _ e => .list facts e
  | node => node

/-- A repeated field whose message is a flatten wrapper. -/
def buildFlattenedRepeated (fuel : Nat) (f : FieldDescriptor n) (m : Fin n) : Gen (IrNode n) :=
  match (pool m).fields with
  | [_] => do
    match ← flattenWalk pool fuel 0 m with
    | .unsupported => pure (makeUnsupported f "flatten wrapper leaf type unsupported")
    | .scalar levels kind =>
      pure (withFacts (baseFacts f) (listLevels levels (.scalar (baseFacts f) kind)))
    | .message depth current =>
      if pool.isRecursive current then pure (makeUnsupported f (recursiveReason pool current))
      else do
        let leaf ← makeStructNode pool build {} current
        pure (withFacts (baseFacts f) (listLevels (depth + 1) leaf))
  | _ => do
    let leaf ← makeStructNode pool build {} m
    pure (.list (baseFacts f) leaf)

/-- `BuildRepeatedMessage`. Recursion is tested before flatten. -/
def buildRepeatedMessage (fuel : Nat) (f : FieldDescriptor n) (m : Fin n) : Gen (IrNode n) :=
  match dynamicWktUnsupportedReason (pool m).fullName with
  | some reason => .ok (makeUnsupported f reason)
  | none =>
    if pool.isRecursive m then .ok (makeUnsupported f (recursiveReason pool m))
    else if (pool m).flatten then buildFlattenedRepeated pool build fuel f m
    else do
      let leaf ← makeStructNode pool build {} m
      pure (.list (baseFacts f) leaf)

/-- The node of a map's value. -/
def buildMapValue (value : FieldDescriptor n) : Gen (Except String (IrNode n)) :=
  match value.type with
  | .message m =>
    match dynamicWktUnsupportedReason (pool m).fullName with
    | some reason => .ok (.error reason)
    | none =>
      if pool.isRecursive m then
        .ok (.error ("map value message '" ++ (pool m).fullName ++
          "' is recursive and cannot be represented in Arrow"))
      else do
        let node ← makeStructNode pool build {} m
        pure (.ok node)
  | t =>
    if isSupportedScalarType t then .ok (.ok (.scalar (baseFacts value) (primitiveKind t)))
    else .ok (.error "map value type unsupported")

/-- `BuildMapNode`. -/
def buildMapNode (f : FieldDescriptor n) (entry : Fin n) : Gen (IrNode n) :=
  match (pool entry).fields with
  | [key, value] =>
    if isSupportedScalarType key.type then do
      match ← buildMapValue pool build value with
      | .ok node =>
        pure (.map (baseFacts f) (.scalar (baseFacts key) (primitiveKind key.type)) node)
      | .error reason => pure (makeUnsupported f reason)
    else .ok (makeUnsupported f "map key type cannot map to a scalar Arrow type")
  -- protobuf gives every entry message exactly a key and a value
  | _ => .error .undefined

/-- `BuildSingularMessage`. -/
def buildSingularMessage (f : FieldDescriptor n) (m : Fin n) : Gen (IrNode n) :=
  match dynamicWktUnsupportedReason (pool m).fullName with
  | some reason => .ok (makeUnsupported f reason)
  | none =>
    if pool.isRecursive m then .ok (makeUnsupported f (recursiveReason pool m))
    else if (pool m).flatten then buildFlattenedSingular pool build f m
    else makeStructNode pool build (singularFacts f) m

end Branches

/-- `BuildFieldIr`. -/
def buildFieldIr (pool : Pool n) : Nat → FieldDescriptor n → Gen (IrNode n)
  | 0, _ => .error .diverges
  | fuel + 1, f =>
    match f.realOneof with
    | some oneof =>
      .ok (makeUnsupported f ("oneof '" ++ oneof ++
        "' cannot be mapped to a Parquet-safe Arrow type; " ++
        "consider using separate optional fields instead"))
    | none =>
      match f.type with
      | .message m =>
        if (pool m).mapEntry then buildMapNode pool (buildFieldIr pool fuel) f m
        else if f.isRepeated then
          buildRepeatedMessage pool (buildFieldIr pool fuel) (fuel + 1) f m
        else
          match tryBuildWkt f (pool m).fullName with
          | some node => .ok node
          | none => buildSingularMessage pool (buildFieldIr pool fuel) f m
      | t =>
        if f.isRepeated then
          .ok (.list (baseFacts f) (.scalar (baseFacts f) (primitiveKind t)))
        else .ok (.scalar (singularFacts f) (primitiveKind t))

end Fletcher.Protoc
