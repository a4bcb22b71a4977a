import Fletcher.Arrow.DataType
import Fletcher.Protoc.Ir

/-!
# What is emitted for a message

For every message it generates, the plugin emits a schema function and a row
class. They come from two walks over the message's fields written
independently of each other:

* the schema visitor's, `buildFlattenedFieldList`, filtered by
  `isSchemaRepresentable`;
* the class emitter's, `gatherFields`, filtered by the projection
  `projectIrToFieldMapping`.

Both inline a field marked with the field-level flatten. A message nested in
another is only named in either output: a call to its schema function, a member
of its class. Following those names is `messageSchema` for the schemas and
`rowClass` for the classes, and a class whose names are followed is a finite
tree, a `Layout`.

`messageSchema_eq` is where the two walks meet: the schema of a message is the
schema of its class.
-/

namespace Fletcher.Protoc

open Lib Arrow Fletcher.Core

variable {n : Nat}

/-! ## The schema visitor -/

/-- The end of a chain of list nodes. -/
def IrNode.listLeaf : IrNode n → IrNode n
  | .list _ e => e.listLeaf
  | node => node

/-- `IsSchemaRepresentable`. -/
def isSchemaRepresentable : IrNode n → Bool
  | .scalar _ _ | .struct _ _ _ => true
  | .unsupported _ _ => false
  | .list _ e =>
    match e with
    | .scalar _ _ | .struct _ _ _ => true
    | .list _ _ =>
      match e.listLeaf with
      | .struct _ _ _ | .scalar _ _ => true
      | _ => false
    | _ => false
  | .map _ key value =>
    match key with
    | .scalar _ _ =>
      match value with
      | .scalar _ _ | .struct _ _ _ => true
      | _ => false
    | _ => false

/-- A field of the flattened list, as far as both walks record it. -/
structure FieldRecord (n : Nat) where
  name : String
  fieldNumber : Nat
  /-- The dotted path of field numbers through the flattened wrappers. -/
  fieldId : String
  node : IrNode n
  /-- The field it was built from, the inner one where a flattened field was inlined. -/
  sourceField : FieldDescriptor n

def fieldPath (idPrefix : String) (f : FieldDescriptor n) : String :=
  if idPrefix = "" then toString f.number else idPrefix ++ "." ++ toString f.number

/-- A field that is not inlined, if the filter keeps its node. -/
def keptField (pool : Pool n) (keep : IrNode n → Bool) (fuel : Nat) (path : String)
    (f : FieldDescriptor n) : Gen (List (FieldRecord n)) := do
  let node ← buildFieldIr pool fuel f
  pure (if keep node then [⟨f.name, f.number, path, node, f⟩] else [])

/-- The walk over a message's fields: inline what has the field-level flatten, and
keep of the rest what the filter keeps. -/
def walkFields (pool : Pool n) (keep : IrNode n → Bool) :
    Nat → String → Fin n → Gen (List (FieldRecord n))
  | 0, _, _ => .error .diverges
  | fuel + 1, idPrefix, m => do
    let parts ← (pool m).fields.mapM fun f =>
      match f.flattenTarget with
      | some inner => walkFields pool keep fuel (fieldPath idPrefix f) inner
      | none => keptField pool keep (fuel + 1) (fieldPath idPrefix f) f
    pure parts.flatten

/-- `BuildFlattenedFieldList`. -/
def buildFlattenedFieldList (pool : Pool n) (fuel : Nat) (m : Fin n) : Gen (List (FieldRecord n)) :=
  walkFields pool isSchemaRepresentable fuel "" m

/-- `EmitScalarType`. -/
def emitScalarType : LogicalKind → DataType
  | .bool => .bool
  | .int32 => .fixed .int32
  | .int64 => .fixed .int64
  | .uint32 => .fixed .uint32
  | .uint64 => .fixed .uint64
  | .float32 => .fixed .float
  | .float64 => .fixed .double
  | .utf8 => .var .string
  | .binary => .var .binary
  | .wktTimestamp => .fixed (.timestamp .nano "")
  | .wktDuration => .fixed (.duration .nano)

def unrepresentable : Error :=
  .runtimeError "schema visitor: unrepresentable node reached emission"

/-- `EmitNodeType`. A list's item and a map's value are nullable and a map's key is
not: those are the flags nanoarrow gives a fresh child, and the visitor sets none. -/
def emitNodeType (nested : Fin n → Gen Schema) : IrNode n → Gen DataType
  | .scalar _ kind => .ok (emitScalarType kind)
  | .list _ e => do
    let t ← emitNodeType nested e
    pure (.list .list ⟨"item", t, true⟩)
  | .struct _ m _ => do
    let fields ← nested m
    pure (.struct fields)
  | .map _ key value => do
    let kt ← match key with
      | .scalar _ kind => pure (emitScalarType kind)
      | _ => .error unrepresentable
    let vt ← match value with
      | .struct _ m _ => do
        let fields ← nested m
        pure (.struct fields)
      | .scalar _ kind => pure (emitScalarType kind)
      | _ => .error unrepresentable
    pure (.map ⟨"key", kt, false⟩ ⟨"value", vt, true⟩ false)
  | .unsupported _ _ => .error unrepresentable

/-- `SchemaVisitor::Visit`, and behind a nested message the schema function it names. -/
def messageSchema (pool : Pool n) : Nat → Fin n → Gen Schema
  | 0, _ => .error .diverges
  | fuel + 1, m => do
    let fields ← buildFlattenedFieldList pool (fuel + 1) m
    fields.mapM fun r => do
      let t ← emitNodeType (messageSchema pool fuel) r.node
      pure ⟨r.name, t, r.node.nullable⟩

/-! ## The row class -/

/-- What a list or a map holds at the bottom. -/
inductive Leaf (n : Nat) where
  | scalar (kind : LogicalKind)
  | struct (m : Fin n)

/-- `FieldMapping`, by `FieldKind`. -/
inductive FieldMapping (n : Nat) where
  | scalar (nullable : Bool) (kind : LogicalKind)
  | repeatedScalar (kind : LogicalKind)
  | struct (nullable : Bool) (m : Fin n)
  | repeatedStruct (m : Fin n)
  | nestedList (nullable : Bool) (depth : Nat) (leaf : Leaf n)
  | map (key : LogicalKind) (value : Leaf n)

/-- How many list nodes a chain has. -/
def IrNode.listDepth : IrNode n → Nat
  | .list _ e => e.listDepth + 1
  | _ => 0

/-- `ProjectIrToFieldMapping`. -/
def projectIrToFieldMapping (node : IrNode n) : Option (FieldMapping n) :=
  match node with
  | .unsupported _ _ => none
  | .scalar facts kind => some (.scalar facts.nullable kind)
  | .struct facts m _ => some (.struct facts.nullable m)
  | .list facts e =>
    match e with
    | .scalar _ kind => some (.repeatedScalar kind)
    | .struct _ m _ => some (.repeatedStruct m)
    | .list _ _ =>
      match e.listLeaf with
      | .struct _ m _ => some (.nestedList facts.nullable node.listDepth (.struct m))
      | .scalar _ kind => some (.nestedList facts.nullable node.listDepth (.scalar kind))
      | _ => none
    | _ => none
  | .map _ key value =>
    match key with
    | .scalar _ kind =>
      match value with
      | .struct _ m _ => some (.map kind (.struct m))
      | .scalar _ vkind => some (.map kind (.scalar vkind))
      | _ => none
    | _ => none

/-- `GatherFields`. -/
def gatherFields (pool : Pool n) (fuel : Nat) (m : Fin n) : Gen (List (FieldRecord n)) :=
  walkFields pool (fun node => (projectIrToFieldMapping node).isSome) fuel "" m

/-- The shape of a value of a row class, with the classes it names followed. -/
inductive Layout where
  | scalar (kind : LogicalKind)
  | list (element : Layout)
  | struct (fields : List (FieldOf Layout))
  | map (key : LogicalKind) (value : Layout)

/-- A row class: its members, in order. -/
abbrev RowClass := List (FieldOf Layout)

/-- The layout of a member, once the classes it names are known. -/
def linkNode (cls : Fin n → Gen RowClass) : IrNode n → Gen Layout
  | .scalar _ kind => .ok (.scalar kind)
  | .list _ e => do
    let l ← linkNode cls e
    pure (.list l)
  | .struct _ m _ => do
    let fields ← cls m
    pure (.struct fields)
  | .map _ key value =>
    match key with
    | .scalar _ kind => do
      let l ← linkNode cls value
      pure (.map kind l)
    | _ => .error .undefined
  | .unsupported _ _ => .error .undefined

/-- The row class of a message. -/
def rowClass (pool : Pool n) : Nat → Fin n → Gen RowClass
  | 0, _ => .error .diverges
  | fuel + 1, m => do
    let fields ← gatherFields pool (fuel + 1) m
    fields.mapM fun r => do
      let l ← linkNode (rowClass pool fuel) r.node
      pure ⟨r.name, l, r.node.nullable⟩

@[elab_as_elim, induction_eliminator]
theorem Layout.induction {P : Layout → Prop} (scalar : ∀ kind, P (.scalar kind))
    (list : ∀ element, P element → P (.list element))
    (struct : ∀ fields, (∀ f ∈ fields, P f.type) → P (.struct fields))
    (map : ∀ key value, P value → P (.map key value)) (l : Layout) : P l := by
  refine @Layout.rec P (fun fs => ∀ f ∈ fs, P f.type) (fun f => P f.type) scalar list struct map
    (by simp) ?_ (fun _ _ _ h => h) l
  intro f fs hf hfs g hg
  rcases List.mem_cons.mp hg with rfl | hg
  · exact hf
  · exact hfs g hg

mutual

/-- The Arrow type of a layout. -/
def Layout.dataType : Layout → DataType
  | .scalar kind => emitScalarType kind
  | .list e => .list .list ⟨"item", e.dataType, true⟩
  | .struct fields => .struct (schemaOf fields)
  | .map key value => .map ⟨"key", emitScalarType key, false⟩ ⟨"value", value.dataType, true⟩ false

/-- The schema of a row class. -/
def schemaOf : RowClass → Schema
  | [] => []
  | ⟨name, l, nullable⟩ :: fs => ⟨name, l.dataType, nullable⟩ :: schemaOf fs

end

theorem schemaOf_eq_map : ∀ cls, schemaOf cls =
    cls.map (fun f => ⟨f.name, f.type.dataType, f.nullable⟩)
  | [] => rfl
  | ⟨_, _, _⟩ :: fs => by rw [schemaOf, schemaOf_eq_map fs]; rfl

/-! ## The two walks agree -/

/-- The schema visitor keeps exactly what the projection keeps. -/
theorem isSchemaRepresentable_eq (node : IrNode n) :
    isSchemaRepresentable node = (projectIrToFieldMapping node).isSome := by
  cases node with
  | scalar facts kind => rfl
  | struct facts m _ => rfl
  | unsupported facts _ => rfl
  | list facts e =>
    cases e with
    | list facts' e' =>
      simp only [isSchemaRepresentable, projectIrToFieldMapping]
      cases (IrNode.list facts' e').listLeaf <;> rfl
    | _ => rfl
  | map facts key value =>
    cases key with
    | scalar facts' kind => cases value <;> rfl
    | _ => rfl

theorem buildFlattenedFieldList_eq_gatherFields (pool : Pool n) (fuel : Nat) (m : Fin n) :
    buildFlattenedFieldList pool fuel m = gatherFields pool fuel m := by
  have hkeep : isSchemaRepresentable (n := n) = fun node => (projectIrToFieldMapping node).isSome :=
    funext isSchemaRepresentable_eq
  rw [buildFlattenedFieldList, gatherFields, hkeep]

/-- Every record a walk returns is a field with its node, and has passed the filter. -/
theorem walkFields_mem {pool : Pool n} {keep : IrNode n → Bool} {fuel : Nat} {idPrefix : String}
    {m : Fin n} {records : List (FieldRecord n)}
    (h : walkFields pool keep fuel idPrefix m = .ok records) : ∀ r ∈ records,
    keep r.node = true ∧ ∃ fuel, buildFieldIr pool fuel r.sourceField = .ok r.node := by
  induction fuel generalizing idPrefix m records with
  | zero => cases h
  | succ fuel ih =>
    obtain ⟨_, hpts, hflat⟩ := bind_eq_ok_iff.mp h
    cases hflat
    intro r hr
    obtain ⟨_, hmem, hr⟩ := List.mem_flatten.mp hr
    obtain ⟨f, -, hf⟩ := mapM_ok_mem hpts hmem
    split at hf
    · exact ih hf r hr
    · obtain ⟨node, hnode, hkept⟩ := bind_eq_ok_iff.mp hf
      cases hkept
      split at hr
      · next hkeep =>
        obtain rfl := List.mem_singleton.mp hr
        exact ⟨hkeep, _, hnode⟩
      · cases hr

/-- A chain of lists over a scalar or a struct. -/
theorem emitNodeType_chain {nested : Fin n → Gen Schema} {cls : Fin n → Gen RowClass}
    (hnes : ∀ m, nested m = (cls m).map schemaOf) : ∀ {node : IrNode n},
    ((∃ facts kind, node.listLeaf = .scalar facts kind) ∨
      ∃ facts m fields, node.listLeaf = .struct facts m fields) →
    emitNodeType nested node = (linkNode cls node).map Layout.dataType
  | .scalar _ _, _ => rfl
  | .list _ e, hleaf => by
    have he : emitNodeType nested e = (linkNode cls e).map Layout.dataType :=
      emitNodeType_chain hnes hleaf
    simp only [emitNodeType, linkNode, he]
    cases linkNode cls e <;> rfl
  | .struct _ m _, _ => by
    simp only [emitNodeType, linkNode, hnes]
    cases cls m <;> rfl
  | .map _ _ _, hleaf => by simp [IrNode.listLeaf] at hleaf
  | .unsupported _ _, hleaf => by simp [IrNode.listLeaf] at hleaf

/-- A member's Arrow type is the type of its layout. -/
theorem emitNodeType_eq {nested : Fin n → Gen Schema} {cls : Fin n → Gen RowClass}
    (hnes : ∀ m, nested m = (cls m).map schemaOf) {node : IrNode n}
    (hkeep : (projectIrToFieldMapping node).isSome = true) :
    emitNodeType nested node = (linkNode cls node).map Layout.dataType := by
  cases node with
  | scalar facts kind => exact emitNodeType_chain hnes (.inl ⟨facts, kind, rfl⟩)
  | struct facts m fields => exact emitNodeType_chain hnes (.inr ⟨facts, m, fields, rfl⟩)
  | unsupported facts _ => simp [projectIrToFieldMapping] at hkeep
  | list facts e =>
    refine emitNodeType_chain hnes ?_
    cases e with
    | scalar facts' kind => exact .inl ⟨facts', kind, rfl⟩
    | struct facts' m fields => exact .inr ⟨facts', m, fields, rfl⟩
    | list facts' e' =>
      simp only [projectIrToFieldMapping] at hkeep
      show (∃ facts kind, (IrNode.list facts' e').listLeaf = .scalar facts kind) ∨
        ∃ facts m fields, (IrNode.list facts' e').listLeaf = .struct facts m fields
      cases hl : (IrNode.list facts' e').listLeaf <;> simp_all
    | _ => simp [projectIrToFieldMapping] at hkeep
  | map facts key value =>
    cases key with
    | scalar facts' kind =>
      cases value with
      | scalar facts'' _ => rfl
      | struct facts'' m fields =>
        simp only [emitNodeType, linkNode, hnes]
        cases cls m <;> rfl
      | _ => simp [projectIrToFieldMapping] at hkeep
    | _ => simp [projectIrToFieldMapping] at hkeep

/-- **One layout.** The schema emitted for a message is the schema of its row class,
and one is emitted exactly when the other is. -/
theorem messageSchema_eq (pool : Pool n) (fuel : Nat) (m : Fin n) :
    messageSchema pool fuel m = (rowClass pool fuel m).map schemaOf := by
  induction fuel generalizing m with
  | zero => rfl
  | succ fuel ih =>
    rw [messageSchema, rowClass, buildFlattenedFieldList_eq_gatherFields]
    cases hfs : gatherFields pool (fuel + 1) m with
    | error e => rfl
    | ok _ =>
      have hkeep := walkFields_mem hfs
      simp only [ok_bind]
      rw [mapM_map_congr (h := fun f => ⟨f.name, f.type.dataType, f.nullable⟩) (g := fun r => do
        let l ← linkNode (rowClass pool fuel) r.node
        pure (⟨r.name, l, r.node.nullable⟩ : FieldOf Layout))]
      · have hmap : schemaOf = List.map fun f => ⟨f.name, f.type.dataType, f.nullable⟩ :=
          funext schemaOf_eq_map
        rw [hmap]
      · intro r hr
        rw [emitNodeType_eq ih (hkeep r hr).1]
        cases linkNode (rowClass pool fuel) r.node <;> rfl

end Fletcher.Protoc
