import Fletcher.Lib.Dfs
import Fletcher.Protoc.RowClass

/-!
# Generating a file

What the plugin does with one `.proto` file: it checks the fields it cannot map, orders the
file's messages, collects the headers to include, and emits a schema function and a row class
for each message it has not skipped. The options add views, a TypeScript module, serialized
schemas and the accessors, each from the same walks over the same messages.

A `FileSet` is everything protoc has read. Messages are numbered in declaration order, a
nested message after the one it is nested in, so the lists protobuf gives out are read off
the numbering. What protobuf itself checks before it calls a plugin is part of the structure.

Every walk over message references is given fuel, and `Error.diverges` is a walk that has
not finished.
-/

namespace Fletcher.Protoc

open Lib Arrow Fletcher.Core

variable {n : Nat}

/-! ## Descriptors of a file -/

structure EnumDescriptor (n : Nat) where
  file : String
  /-- `containing_type()`. -/
  owner : Option (Fin n)
  deriving DecidableEq, Repr

structure MethodDescriptor (n : Nat) where
  inputType : Fin n
  outputFullName : String
  clientStreaming : Bool
  serverStreaming : Bool
  deriving DecidableEq, Repr

structure FileSet (n : Nat) where
  pool : Pool n
  /-- The name of the message's file. -/
  file : Fin n → String
  containingType : Fin n → Option (Fin n)
  /-- `enum_type()` of a field of type ENUM. -/
  enumType : FieldDescriptor n → EnumDescriptor n
  /-- The methods of a file's services. -/
  methods : String → List (MethodDescriptor n)
  nested_lt : ∀ {m p : Fin n}, containingType m = some p → p < m
  nested_file : ∀ {m p : Fin n}, containingType m = some p → file m = file p
  /-- An entry has a scalar key and a value, and only a map field refers to one. -/
  entry : ∀ {m : Fin n}, (pool m).mapEntry = true → ∃ key value, (pool m).fields = [key, value] ∧
    isSupportedScalarType key.type = true ∧ pool.isMap value = false
  owner_file : ∀ {f : FieldDescriptor n} {o : Fin n}, (enumType f).owner = some o →
    file o = (enumType f).file ∧ (pool o).mapEntry = false

namespace FileSet

variable (fs : FileSet n)

/-- `msg->nested_type(i)`. -/
def nestedTypes (m : Fin n) : List (Fin n) :=
  (List.finRange n).filter fun c => fs.containingType c = some m

/-- `file->message_type(i)`. -/
def messageTypes (file : String) : List (Fin n) :=
  (List.finRange n).filter fun m => fs.file m = file ∧ fs.containingType m = none

/-! ## Names of headers -/

/-- `StripProtoSuffix`. -/
def stripProtoSuffix (name : String) : String :=
  let cs := name.toList
  if 6 < cs.length ∧ cs.drop (cs.length - 6) = ".proto".toList then
    String.ofList (cs.take (cs.length - 6))
  else name

/-- `OutputFilename`. -/
def outputFilename (file : String) : String := stripProtoSuffix file ++ ".fletcher.pb.h"

/-! ## Include collection -/

/-- The message a mapping names: `nested_msg` or `map_value_msg`. -/
def target : FieldMapping n → Option (Fin n)
  | .struct _ m | .repeatedStruct m | .nestedList _ _ (.struct m) | .map _ (.struct m) => some m
  | _ => none

/-- The message an emitter names for a field. -/
def named (node : IrNode n) : Option (Fin n) := (projectIrToFieldMapping node).bind target

/-- `FieldEnumType`. -/
def fieldEnumType (f : FieldDescriptor n) : Option (EnumDescriptor n) :=
  if fs.pool.isMap f then
    match f.messageType? with
    | some entry =>
      match (fs.pool entry).fields with
      | [_, value] => if value.type = .enum then some (fs.enumType value) else none
      | _ => none
    | none => none
  else if f.type = .enum then some (fs.enumType f)
  else none

/-- The header of a field's message, if that is in another file. -/
def messageHeader (file : String) (node : IrNode n) : Option String :=
  match named node with
  | some d => if fs.file d = file then none else some (outputFilename (fs.file d))
  | none => none

/-- The header of a field's enum, if that is in another file. -/
def enumHeader (file : String) (f : FieldDescriptor n) : Option String :=
  match fs.fieldEnumType f with
  | some e => if e.file = file then none else some (outputFilename e.file)
  | none => none

/-- `headers.insert(..)`. -/
def addHeader (headers : List String) : Option String → List String
  | some h => headers.insert h
  | none => headers

/-- `CollectCrossFileIncludesFromMessage`. -/
def collectIncludesFrom (file : String) : Nat → List String → Fin n → Gen (List String)
  | 0, _, _ => .error .diverges
  | fuel + 1, headers, m => do
    let headers ← (fs.pool m).fields.foldlM (fun headers f => do
      let node ← buildFieldIr fs.pool fuel f
      pure (addHeader headers (fs.messageHeader file node))) headers
    (fs.nestedTypes m).foldlM (collectIncludesFrom file fuel) headers

/-- `CollectCrossFileEnumIncludesFromMessage`. Nothing keeps it from coming back to a message
it is still in. -/
def collectEnumIncludesFrom (file : String) : Nat → List String → Fin n → Gen (List String)
  | 0, _, _ => .error .diverges
  | fuel + 1, headers, m => do
    let headers ← (fs.pool m).fields.foldlM (fun headers f =>
      match f.flattenTarget with
      | some inner => collectEnumIncludesFrom file fuel headers inner
      | none => .ok (addHeader headers (fs.enumHeader file f))) headers
    (fs.nestedTypes m).foldlM (collectEnumIncludesFrom file fuel) headers

/-- `CollectCrossFileIncludes`. -/
def collectIncludes (fuel : Nat) (file : String) : Gen (List String) :=
  (fs.messageTypes file).foldlM (fs.collectIncludesFrom file fuel) []

/-- The loop over `CollectCrossFileEnumIncludesFromMessage`. -/
def collectEnumIncludes (fuel : Nat) (file : String) (headers : List String) :
    Gen (List String) :=
  (fs.messageTypes file).foldlM (fs.collectEnumIncludesFrom file fuel) headers

/-! ## The order of the messages -/

/-- `CppEnumTypeEmittable`. -/
def enumEmittable (e : EnumDescriptor n) : Bool :=
  match e.owner with
  | some o => !fs.pool.isRecursive o && !fs.pool.isFlattenedWrapper o
  | none => true

/-- The messages a message's fields and map values refer to. -/
def dependencies (m : Fin n) : List (Fin n) := (fs.pool m).fields.filterMap fs.pool.descends

/-- The owner a field's typed accessor names, where there is one. -/
def enumOwner (f : FieldDescriptor n) : Option (Fin n) :=
  match fs.fieldEnumType f with
  | some e => if fs.enumEmittable e then e.owner else none
  | none => none

/-- The owners of the enums a message's fields name, of the same file and not itself. -/
def enumOwners (m : Fin n) : List (Fin n) :=
  (fs.pool m).fields.filterMap fun f =>
    match fs.enumOwner f with
    | some o => if o ≠ m ∧ fs.file o = fs.file m then some o else none
    | none => none

/-- The calls `TopologicalVisit` makes from a message, in order. -/
def precedes (m : Fin n) : List (Fin n) := fs.nestedTypes m ++ fs.dependencies m ++ fs.enumOwners m

/-- What `TopologicalVisit` does with a message of its own. -/
def verdict (file : String) (m : Fin n) : Dfs.Verdict :=
  if (fs.pool m).mapEntry then .skip
  else if fs.file m ≠ file then .skip
  else if fs.pool.isRecursive m then .drop
  else .list

/-- `OrderedMessages`. -/
def orderedMessages (fuel : Nat) (file : String) : Gen (List (Fin n)) :=
  Dfs.listFrom (fs.verdict file) fs.precedes .diverges fuel (fs.messageTypes file)

/-- The messages the emit loops do not skip. -/
def isGenerated (m : Fin n) : Bool := !fs.pool.isRecursive m && !fs.pool.isFlattenedWrapper m

/-- The messages a file's emit loops go over. -/
def generatedMessages (fuel : Nat) (file : String) : Gen (List (Fin n)) := do
  let messages ← fs.orderedMessages fuel file
  pure (messages.filter fs.isGenerated)

end FileSet

/-! ## Validation -/

mutual

/-- `FindUnsupportedIr`. -/
def findUnsupportedIr : IrNode n → Option String
  | .unsupported facts reason =>
    some ("unsupported field '" ++ facts.protoFullName ++ "': " ++ reason)
  | .list _ e => findUnsupportedIr e
  | .map _ key value => (findUnsupportedIr key).or (findUnsupportedIr value)
  | .struct _ _ fields => findUnsupportedIn fields
  | .scalar _ _ => none

def findUnsupportedIn : List (IrNode n) → Option String
  | [] => none
  | node :: nodes => (findUnsupportedIr node).or (findUnsupportedIn nodes)

end

mutual

/-- `FindScalarLeafNestedList`. Below a list of lists the source goes straight to the leaf;
with a leaf that is no scalar each list on the way hands it on. -/
def findScalarLeafNestedList : IrNode n → Option String
  | .list facts e =>
    match e with
    | .list _ _ =>
      match e.listLeaf with
      | .scalar _ _ => some facts.protoFullName
      | _ => findScalarLeafNestedList e
    | _ => findScalarLeafNestedList e
  | .map _ key value => (findScalarLeafNestedList key).or (findScalarLeafNestedList value)
  | .struct _ _ fields => findScalarLeafNestedListIn fields
  | .scalar _ _ | .unsupported _ _ => none

def findScalarLeafNestedListIn : List (IrNode n) → Option String
  | [] => none
  | node :: nodes => (findScalarLeafNestedList node).or (findScalarLeafNestedListIn nodes)

end

namespace FileSet

variable (fs : FileSet n)

/-- The first finding in a field of a message the emit loops do not skip. -/
def firstFinding (find : IrNode n → Option String) (fuel : Nat) (file : String) :
    Gen (Option String) := do
  let messages ← fs.generatedMessages fuel file
  firstM (fun m => firstM (fun f => do
    let node ← buildFieldIr fs.pool fuel f
    pure (find node)) (fs.pool m).fields) messages

/-- `ValidateNoUnsupportedIr`: the error, if there is one. -/
def validateNoUnsupportedIr (fuel : Nat) (file : String) : Gen (Option String) :=
  fs.firstFinding findUnsupportedIr fuel file

structure PluginOptions where
  schemaOnly : Bool := false
  ts : Bool := false
  ipc : Bool := false
  accessor : Bool := false
  rust : Bool := false
  deriving DecidableEq, Repr

/-- `ValidateBackendsSupportFields`. -/
def validateBackendsSupportFields (opts : PluginOptions) (fuel : Nat) (file : String) :
    Gen (Option String) :=
  if opts.accessor || opts.rust then do
    let found ← fs.firstFinding findScalarLeafNestedList fuel file
    pure (found.map fun field => "field '" ++ field ++
      "': scalar-leaf nested lists (List<List<scalar>>) are not yet supported " ++
      "by the RecordBatch accessor / Rust backend (tracked for round RIR); " ++
      "regenerate without --fletcher_opt=accessor,rust (the edge, Arrow view, " ++
      "IPC schema, and TS backends do support them)")
  else .ok none

/-- `msg->name()`: what follows the last dot of the full name. -/
def simpleName (m : Fin n) : String :=
  String.ofList ((fs.pool m).fullName.toList.reverse.takeWhile (· ≠ '.')).reverse

/-- `ValidateServiceMethod`: why a method gets no publisher and subscriber. -/
def validateServiceMethod (method : MethodDescriptor n) (generated : List (Fin n)) :
    Option String :=
  if method.clientStreaming = false then
    some "request is not streaming (pub/sub requires 'stream' on request)"
  else if method.serverStreaming then
    some "server-streaming is not supported for pub/sub (no replies)"
  else if method.outputFullName ≠ "google.protobuf.Empty" then
    some "return type must be google.protobuf.Empty for pub/sub"
  else if method.inputType ∈ generated then none
  else some ("input message '" ++ fs.simpleName method.inputType ++
    "' has no generated Arrow mapping in this file")

/-! ## Emission -/

/-- A message with the fields an emitter writes for it. -/
structure Emitted (n : Nat) where
  message : Fin n
  fields : List (FieldRecord n)

/-- The generated header: what it includes, and of each message the fields of its schema
function and of its row class. -/
structure Header (n : Nat) where
  includes : List String
  schemas : List (Emitted n)
  classes : List (Emitted n)
  /-- The messages that have publisher and subscriber classes. -/
  topics : List (Fin n)

/-- The fields of each generated message. -/
def emit (walk : Fin n → Gen (List (FieldRecord n))) (messages : List (Fin n)) :
    Gen (List (Emitted n)) :=
  messages.mapM fun m => do
    let fields ← walk m
    pure ⟨m, fields⟩

/-- `GenerateFile`. -/
def generateFile (fuel : Nat) (schemaOnly : Bool) (file : String) : Gen (Header n) := do
  let includes ← fs.collectIncludes fuel file
  let includes ← fs.collectEnumIncludes fuel file includes
  let messages ← fs.generatedMessages fuel file
  let classes ← emit (gatherFields fs.pool fuel) messages
  let schemas ← emit (buildFlattenedFieldList fs.pool fuel) messages
  let topics := (fs.methods file).filter fun m => (fs.validateServiceMethod m messages).isNone
  pure ⟨includes, schemas, if schemaOnly then [] else classes,
    if schemaOnly then [] else topics.map (·.inputType)⟩

/-- `EmitAccessorHeader`. -/
def emitAccessorHeader (fuel : Nat) (file : String) : Gen (List String × List (Emitted n)) := do
  let includes ← fs.collectIncludes fuel file
  let messages ← fs.generatedMessages fuel file
  let classes ← emit (gatherFields fs.pool fuel) messages
  pure (includes, classes)

/-- `GenerateViewFile`: nothing is written where no message has a view. -/
def generateViewFile (fuel : Nat) (file : String) :
    Gen (Option (List String × List (Emitted n))) := do
  let messages ← fs.generatedMessages fuel file
  if messages.isEmpty then pure none
  else do
    let includes ← fs.collectIncludes fuel file
    let views ← emit (gatherFields fs.pool fuel) messages
    pure (some (includes, views))

/-- `GenerateTypeScriptFile`, which skips no wrapper. -/
def generateTypeScriptFile (fuel : Nat) (file : String) : Gen (List (Emitted n)) := do
  let messages ← fs.orderedMessages fuel file
  emit (buildFlattenedFieldList fs.pool fuel) messages

/-- The serialized schemas of a file. What the visitor throws on a node it cannot represent is
not caught here: the field list has no such node. -/
def ipcSchemas (fuel : Nat) (file : String) : Gen (List Schema) := do
  let messages ← fs.generatedMessages fuel file
  messages.mapM (messageSchema fs.pool fuel)

/-- `RustScalarFor`: every kind the classifier produces has a Rust array. -/
def rustScalarFor : LogicalKind → Bool := fun _ => true

/-- The cases of `RustFieldSupported`, which `RustMessageAccessorSupported` repeats. -/
def rustMappingSupported (inner : Fin n → Gen Bool) : FieldMapping n → Gen Bool
  | .scalar _ kind | .repeatedScalar kind => .ok (rustScalarFor kind)
  | .struct _ m | .repeatedStruct m => inner m
  | .map key value =>
    if rustScalarFor key then
      match value with
      | .struct m => inner m
      | .scalar kind => .ok (rustScalarFor kind)
    else .ok false
  | .nestedList _ depth leaf =>
    if depth ≠ 2 ∧ depth ≠ 3 then .ok false
    else
      match leaf with
      | .struct m => inner m
      -- there is no message, and so no accessor
      | .scalar _ => .ok false

/-- The first mapping that is not supported ends the loop over a message's fields. -/
def rustFieldsSupported (inner : Fin n → Gen Bool) (fields : List (FieldRecord n)) : Gen Bool := do
  let unsupported ← firstM (fun r =>
    match projectIrToFieldMapping r.node with
    | some mapping => do
      let ok ← rustMappingSupported inner mapping
      pure (if ok then none else some r.name)
    | none => .ok none) fields
  pure unsupported.isNone

/-- `RustMessageAccessorSupported`. -/
def rustMessageAccessorSupported : Nat → List (Fin n) → Fin n → Gen Bool
  | 0, _, _ => .error .diverges
  | fuel + 1, visited, m =>
    if fs.pool.isRecursive m then .ok false
    else if m ∈ visited then .ok true
    else do
      let fields ← gatherFields fs.pool fuel m
      rustFieldsSupported (rustMessageAccessorSupported fuel (m :: visited)) fields

/-- `EmitRustAccessor`: of each message, whether it gets an accessor. -/
def rustAccessors (fuel : Nat) (file : String) : Gen (List Bool) := do
  let messages ← fs.generatedMessages fuel file
  messages.mapM fun m => do
    let fields ← gatherFields fs.pool fuel m
    rustFieldsSupported (fs.rustMessageAccessorSupported fuel []) fields

/-- What `Generate` writes. -/
structure Generated (n : Nat) where
  header : Header n
  views : Option (List String × List (Emitted n))
  ts : Option (List (Emitted n))
  ipc : Option (List Schema)
  accessor : Option (List String × List (Emitted n))
  rust : Option (List Bool)

def optionally {α : Type} (wanted : Bool) (x : Gen α) : Gen (Option α) :=
  if wanted then do
    let a ← x
    pure (some a)
  else .ok none

/-- What follows the checks in `Generate`. -/
def emitAll (opts : PluginOptions) (fuel : Nat) (file : String) : Gen (Generated n) := do
  let header ← fs.generateFile fuel opts.schemaOnly file
  let views ← optionally (!opts.schemaOnly) (fs.generateViewFile fuel file)
  let ts ← optionally opts.ts (fs.generateTypeScriptFile fuel file)
  let ipc ← optionally opts.ipc (fs.ipcSchemas fuel file)
  let accessor ← optionally opts.accessor (fs.emitAccessorHeader fuel file)
  let rust ← optionally opts.rust (fs.rustAccessors fuel file)
  pure ⟨header, views.join, ts, ipc, accessor, rust⟩

/-- `ArrowRowGenerator::Generate`. `parameter` is what the parameter parses to, its metadata
rules compiled. -/
def generate (parameter : Except String PluginOptions) (fuel : Nat) (file : String) :
    Gen (Except String (Generated n)) := do
  match ← fs.validateNoUnsupportedIr fuel file with
  | some error => pure (.error error)
  | none =>
    match parameter with
    | .error error => pure (.error error)
    | .ok opts =>
      match ← fs.validateBackendsSupportFields opts fuel file with
      | some error => pure (.error error)
      | none => do
        let generated ← fs.emitAll opts fuel file
        pure (.ok generated)

end FileSet

end Fletcher.Protoc
