import Mathlib.Order.Fin.Basic

/-!
# Proto descriptors

The part of a descriptor pool the generator looks at. Messages are numbered, and
a field refers to its message type by number, so a pool is any finite graph of
messages, cyclic ones included, and no reference can dangle.
-/

namespace Fletcher.Protoc

/-- `FieldDescriptor::Type`. -/
inductive FieldType (n : Nat) where
  | double | float
  | int32 | int64 | uint32 | uint64 | sint32 | sint64
  | fixed32 | fixed64 | sfixed32 | sfixed64
  | bool | string | bytes | enum
  | group (m : Fin n)
  | message (m : Fin n)
  deriving DecidableEq, Repr

inductive Label where
  | optional | required | repeated
  deriving DecidableEq, Repr

structure FieldDescriptor (n : Nat) where
  name : String
  fullName : String
  number : Nat
  type : FieldType n
  label : Label
  /-- `has_optional_keyword()`. -/
  optionalKeyword : Bool
  /-- Whether the field's file has `syntax = "proto2"`. -/
  proto2 : Bool
  /-- The name of `real_containing_oneof()`. -/
  realOneof : Option String
  /-- The field-level `(fletcher.flatten)`. -/
  flatten : Bool
  deriving DecidableEq, Repr

structure Descriptor (n : Nat) where
  fullName : String
  fields : List (FieldDescriptor n)
  /-- The message-level `(fletcher.flatten)`. -/
  flatten : Bool
  /-- A synthetic entry message of a map field: one key, one value. -/
  mapEntry : Bool
  deriving DecidableEq, Repr

abbrev Pool (n : Nat) := Fin n → Descriptor n

variable {n : Nat}

namespace FieldDescriptor

def isRepeated (f : FieldDescriptor n) : Bool := f.label == .repeated

/-- `IsFieldNullable`. -/
def isNullable (f : FieldDescriptor n) : Bool :=
  f.optionalKeyword || (f.proto2 && f.label == .optional)

/-- The message a field of type MESSAGE refers to. A group is not one. -/
def messageType? (f : FieldDescriptor n) : Option (Fin n) :=
  match f.type with
  | .message m => some m
  | _ => none

/-- The message a field marked with the field-level flatten is replaced by. -/
def flattenTarget (f : FieldDescriptor n) : Option (Fin n) :=
  match f.messageType? with
  | some m => if !f.isRepeated && f.flatten then some m else none
  | none => none

end FieldDescriptor

namespace Pool

/-- `field->is_map()`. -/
def isMap (pool : Pool n) (f : FieldDescriptor n) : Bool :=
  match f.messageType? with
  | some m => (pool m).mapEntry
  | none => false

/-- The message `IsRecursiveImpl` descends into for a field: a map's value message,
any other message field's own type. -/
def descends (pool : Pool n) (f : FieldDescriptor n) : Option (Fin n) :=
  match f.messageType? with
  | some m =>
    if (pool m).mapEntry then
      match (pool m).fields with
      | [_, value] => value.messageType?
      | _ => none
    else some m
  | none => none

/-- `IsRecursiveImpl`. The stack holds distinct messages, so the recursion is never
more than `n + 1` deep. -/
def isRecursiveImpl (pool : Pool n) : Nat → List (Fin n) → Fin n → Bool
  | 0, _, _ => true
  | fuel + 1, stack, m =>
    stack.contains m ||
      (pool m).fields.any fun f =>
        match pool.descends f with
        | some child => isRecursiveImpl pool fuel (m :: stack) child
        | none => false

def isRecursive (pool : Pool n) (m : Fin n) : Bool := pool.isRecursiveImpl (n + 1) [] m

/-- `IsFlattenedWrapper`. -/
def isFlattenedWrapper (pool : Pool n) (m : Fin n) : Bool :=
  (pool m).flatten && (pool m).fields.length == 1

end Pool

end Fletcher.Protoc
