import Fletcher.Protoc.Enough
import Fletcher.Protoc.Files
import Fletcher.Ts.Descriptor

/-!
# The TypeScript visitor

For every message of a file the plugin emits a constant, a tree of field descriptors. The
visitor walks the same field list as the schema visitor. Like it, it does not descend into a
nested message: it refers to that message's constant. In one place it refers to another
constant than the schema does, that of the flatten wrapper a field was declared with.

`schemaConst` is a constant with its references followed, inside the module of one file. The
module declares the constants of the file's ordered messages, one after the other, and a name is
in scope from its declaration on. Map entries, recursive messages and what is nested in those
are not listed, messages without fields get no constant, and nothing is imported from other
files.
-/

namespace Fletcher.Protoc

open Lib Arrow Fletcher.Core
open Ts (WireTypeId SchemaDescriptor Describes DescribesAll DescribesSchema describesAll_iff)

variable {n : Nat}

/-! ## The model -/

/-- The wire type of `TsLookupScalar`. -/
def tsLookupScalar : LogicalKind → WireTypeId
  | .bool => .bool
  | .int32 => .int32
  | .int64 => .int64
  | .uint32 => .uint32
  | .uint64 => .uint64
  | .float32 => .float32
  | .float64 => .float64
  | .utf8 => .string
  | .binary => .binary
  | .wktTimestamp => .timestampNano
  | .wktDuration => .durationNano

/-- The wrapper's name goes to a direct struct element, never through a nested list. -/
def elementDeclared (declared : Option (Fin n)) : IrNode n → Option (Fin n)
  | .struct _ _ _ => declared
  | _ => none

/-- `DescriptorLiteral`, and `ElementDescriptor` with an empty name and no nullable flag. A
struct takes its fields from a constant. -/
def descriptorLiteral (constant : Fin n → Gen SchemaDescriptor) (name : String) (nullable : Bool)
    (declared : Option (Fin n)) : IrNode n → Gen Ts.FieldDescriptor
  | .scalar _ kind => .ok ⟨name, tsLookupScalar kind, nullable, none, none, none, [], none⟩
  | .unsupported _ _ => .ok ⟨name, .unknown, nullable, none, none, none, [], none⟩
  | .list _ e => do
    let element ← descriptorLiteral constant "" false (elementDeclared declared e) e
    pure ⟨name, .list, nullable, some element, none, none, [], none⟩
  | .struct _ m _ => do
    let fields ← constant (declared.getD m)
    pure ⟨name, .struct, nullable, none, none, none, fields, none⟩
  | .map _ key value => do
    let mapKey ← descriptorLiteral constant "" false none key
    let mapValue ← descriptorLiteral constant "" false none value
    pure ⟨name, .map, nullable, none, some mapKey, some mapValue, [], none⟩

/-- The constant a node refers to, and the message whose fields the schema has there. -/
def reference (declared : Option (Fin n)) : IrNode n → Option (Fin n × Fin n)
  | .scalar _ _ | .unsupported _ _ => none
  | .list _ e => reference (elementDeclared declared e) e
  | .struct _ m _ => some (declared.getD m, m)
  | .map _ _ value => reference none value

end Fletcher.Protoc
