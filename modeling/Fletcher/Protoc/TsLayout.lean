import Fletcher.Protoc.TsVisitor

/-!
# Generated descriptors against generated schemas

Both come from the same field list, so a field's descriptor can differ from its Arrow type in
one way only: its struct's fields may be those of another constant. `NodeShape` says so, one
field at a time. What remains is to say when two constants have the same fields, and here
nesting depth decides. A wrapper's constant that does not inline the message it is named for
holds that message one struct further down, so it is deeper than the message's schema, and
nothing deeper describes it.
-/

namespace Fletcher.Protoc

open Lib Arrow Fletcher.Core
open Ts (WireTypeId SchemaDescriptor Describes DescribesAll DescribesSchema describesAll_iff)

variable {n : Nat} {fields : List Field} {fds : List Ts.FieldDescriptor}

/-! ## Nesting depth -/

mutual

/-- How many structs lie one inside the other, looking through lists and map values. -/
def typeDepth : DataType → Nat
  | .struct fields => fieldsDepth fields + 1
  | .list _ ⟨_, t, _⟩ => typeDepth t
  | .map _ ⟨_, t, _⟩ _ => typeDepth t
  | _ => 0

def fieldsDepth : List Field → Nat
  | [] => 0
  | ⟨_, t, _⟩ :: fs => max (typeDepth t) (fieldsDepth fs)

end

mutual

def descriptorDepth : Ts.FieldDescriptor → Nat
  | ⟨_, .struct, _, _, _, _, fields, _⟩ => descriptorsDepth fields + 1
  | ⟨_, .list, _, some e, _, _, _, _⟩ => descriptorDepth e
  | ⟨_, .largeList, _, some e, _, _, _, _⟩ => descriptorDepth e
  | ⟨_, .map, _, _, _, some v, _, _⟩ => descriptorDepth v
  | _ => 0

def descriptorsDepth : List Ts.FieldDescriptor → Nat
  | [] => 0
  | fd :: fds => max (descriptorDepth fd) (descriptorsDepth fds)

end

/-- A type and a descriptor around the fields of one struct. -/
structure Around (T : Schema → DataType) (D : SchemaDescriptor → Ts.FieldDescriptor) : Prop where
  describes : ∀ fields fds, Describes (T fields) (D fds) ↔
    fields.length ≤ Ts.maxArrayLength ∧ DescribesAll fields fds
  typeDepth : ∀ fields, typeDepth (T fields) = fieldsDepth fields + 1
  descriptorDepth : ∀ fds, descriptorDepth (D fds) = descriptorsDepth fds + 1

/-- What the two visitors make of a node: the type and its descriptor, or both around the
struct they refer to. -/
inductive NodeShape (declared : Option (Fin n)) (name : String) (nullable : Bool)
    (node : IrNode n) : Prop where
  | leaf {t : DataType} {fd : Ts.FieldDescriptor} (noReference : reference declared node = none)
    (type : ∀ nested, emitNodeType nested node = .ok t)
    (literal : ∀ constant, descriptorLiteral constant name nullable declared node = .ok fd)
    (describes : Describes t fd) (depth : Protoc.typeDepth t = 0)
  | struct {c s : Fin n} {T : Schema → DataType} {D : SchemaDescriptor → Ts.FieldDescriptor}
    (refers : reference declared node = some (c, s))
    (type : ∀ nested, emitNodeType nested node = (nested s).map T)
    (literal : ∀ constant,
      descriptorLiteral constant name nullable declared node = (constant c).map D)
    (around : Around T D)

theorem NodeShape.list {declared : Option (Fin n)} {e : IrNode n} (name : String) (nullable : Bool)
    (facts : FieldFacts) (h : NodeShape (elementDeclared declared e) "" false e) :
    NodeShape declared name nullable (.list facts e) := by
  cases h with
  | @leaf t fd noReference type literal describes depth =>
    have hdesc : Describes (.list .list ⟨"item", t, true⟩)
        ⟨name, .list, nullable, some fd, none, none, [], none⟩ := ⟨rfl, fd, rfl, describes⟩
    refine .leaf noReference (fun nested => ?_) (fun constant => ?_) hdesc depth
    · rw [emitNodeType, type]
      rfl
    · rw [descriptorLiteral, literal]
      rfl
  | @struct c s T D refers type literal around =>
    refine .struct refers (fun nested => ?_) (fun constant => ?_)
      (T := fun fields => .list .list ⟨"item", T fields, true⟩)
      (D := fun fds => ⟨name, .list, nullable, some (D fds), none, none, [], none⟩) ?_
    · rw [emitNodeType, type]
      cases nested s <;> rfl
    · rw [descriptorLiteral, literal]
      cases constant c <;> rfl
    · refine ⟨fun fields fds => ?_, around.typeDepth, around.descriptorDepth⟩
      rw [← around.describes]
      constructor
      · rintro ⟨-, e, he, hdesc⟩
        cases he
        exact hdesc
      · exact fun hdesc => ⟨rfl, _, rfl, hdesc⟩

theorem NodeShape.map {value : IrNode n} (declared : Option (Fin n)) (name : String)
    (nullable : Bool) (facts keyFacts : FieldFacts) (kind : LogicalKind)
    (hvalue : (∃ facts kind, value = .scalar facts kind) ∨
      ∃ facts m fields, value = .struct facts m fields) :
    NodeShape declared name nullable (.map facts (.scalar keyFacts kind) value) := by
  have hkey : Describes (emitScalarType kind)
      ⟨"", tsLookupScalar kind, false, none, none, none, [], none⟩ := by cases kind <;> rfl
  rcases hvalue with ⟨vfacts, vkind, rfl⟩ | ⟨vfacts, m, fields, rfl⟩
  · have hval : Describes (emitScalarType vkind)
        ⟨"", tsLookupScalar vkind, false, none, none, none, [], none⟩ := by cases vkind <;> rfl
    refine .leaf rfl (fun _ => rfl) (fun _ => rfl) ⟨rfl, ⟨_, rfl, hkey⟩, _, rfl, hval⟩ ?_
    cases vkind <;> rfl
  · refine .struct rfl (fun nested => ?_) (fun constant => ?_)
      (T := fun fields => .map ⟨"key", emitScalarType kind, false⟩ ⟨"value", .struct fields, true⟩
        false)
      (D := fun fds => ⟨name, .map, nullable, none,
        some ⟨"", tsLookupScalar kind, false, none, none, none, [], none⟩,
        some ⟨"", .struct, false, none, none, none, fds, none⟩, [], none⟩) ?_
    · simp only [emitNodeType]
      cases nested m <;> rfl
    · rw [descriptorLiteral]
      show _ = (constant m).map _
      cases hc : constant m with
      | error e => simp [descriptorLiteral, hc, Except.map]
      | ok fds => simp [descriptorLiteral, hc, Except.map, pure, Except.pure]
    · refine ⟨fun fields fds => ?_, fun _ => rfl, fun _ => rfl⟩
      constructor
      · rintro ⟨-, -, v, hv, hdesc⟩
        cases hv
        exact hdesc.2
      · exact fun hdesc => ⟨rfl, ⟨_, rfl, hkey⟩, _, rfl, rfl, hdesc⟩

end Fletcher.Protoc
