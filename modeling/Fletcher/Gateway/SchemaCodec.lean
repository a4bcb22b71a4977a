import Fletcher.Gateway.Session
import Mathlib.Data.List.TakeWhile

/-!
# Schemas between JSON and Arrow

`create_topic` turns a publisher's JSON schema into an Arrow schema, and the `subscribed`
reply turns an Arrow schema back into JSON.

What a client sees of a field is what `parseFieldDescriptor` reads of it. The way through
the Arrow schema keeps name and wire type, but the builder never looks at `nullable` or
`fieldNumber`.
-/

namespace Fletcher.Gateway

open Lib Utf8 Fletcher.Core PubSub List

/-- `NanoarrowTypeToWireType`. -/
def nanoarrowTypeToWireType : ArrowType → Int
  | .bool => 0x01
  | .int8 => 0x02
  | .int16 => 0x03
  | .int32 => 0x04
  | .int64 => 0x05
  | .uint8 => 0x06
  | .uint16 => 0x07
  | .uint32 => 0x08
  | .uint64 => 0x09
  | .float => 0x0A
  | .double => 0x0B
  | .string => 0x0C
  | .binary => 0x0D
  | .date32 => 0x0E
  | .date64 => 0x0F
  | .timestamp => 0x10
  | .time32 => 0x11
  | .time64 => 0x12
  | .duration => 0x13
  | .fixedSizeBinary => 0x14
  | .halfFloat => 0x15
  | .decimal128 => 0x16
  | .decimal256 => 0x17
  | .largeString => 0x18
  | .largeBinary => 0x19
  | .stringView => 0x1A
  | .binaryView => 0x1B
  | .intervalMonths => 0x1C
  | .intervalDayTime => 0x1D
  | .intervalMonthDayNano => 0x1E
  | .struct => 0x20
  | .list => 0x21
  | .largeList => 0x22
  | .fixedSizeList => 0x23
  | .map => 0x24
  | .sparseUnion => 0x25
  | .denseUnion => 0x26
  | .other => 0x00

/-! ## Arrow to JSON -/

/-- `std::stoi`. -/
def stoi (s : Bytes) : Except Error Int :=
  let numeral := signOf (s.dropWhile isSpace)
  let ds := numeral.2.takeWhile isDigit
  let value : Int := if numeral.1 then -(digitsValue ds : Int) else digitsValue ds
  if ds = [] then .error (.invalidArgument "stoi")
  else if value < -2 ^ 31 ∨ 2 ^ 31 ≤ value then .error (.outOfRange "stoi")
  else .ok value

/-- The `fieldNumber` member, from the `field_number` entry of the metadata. -/
def fieldNumberMember (metadata : Option (List (Bytes × Bytes))) :
    Except Error (List (Bytes × Json)) :=
  match metadata.bind (·.lookup (ascii "field_number")) with
  | some value => do
    let number ← stoi value
    .ok [(ascii "fieldNumber", .integer number)]
  | none => .ok []

mutual

/-- `FieldToJson`. A child that a nested type does not have is read anyway. -/
def fieldToJson : ArrowSchema → Except Error Json
  | .mk name nullable type metadata fixedSize children => do
    let number ← fieldNumberMember metadata
    let nested ←
      match type, children with
      | .struct, children => do
        let fields ← fieldsToJson children
        .ok [(ascii "fields", .array fields)]
      | .list, child :: _ | .largeList, child :: _ => do
        let element ← fieldToJson child
        .ok [(ascii "element", element)]
      | .fixedSizeList, child :: _ => do
        let element ← fieldToJson child
        .ok [(ascii "element", element), (ascii "fixedSize", .integer fixedSize)]
      | .map, .mk _ _ _ _ _ (key :: value :: _) :: _ => do
        let mapKey ← fieldToJson key
        let mapValue ← fieldToJson value
        .ok [(ascii "mapKey", mapKey), (ascii "mapValue", mapValue)]
      | .list, _ | .largeList, _ | .fixedSizeList, _ | .map, _ => .error .undefined
      | _, _ => .ok []
    .ok (.object ([(ascii "name", .string (name.getD [])),
      (ascii "nullable", .boolean nullable),
      (ascii "wireType", .integer (nanoarrowTypeToWireType type))] ++ number ++ nested))

def fieldsToJson : List ArrowSchema → Except Error (List Json)
  | [] => .ok []
  | child :: children => do
    let j ← fieldToJson child
    let js ← fieldsToJson children
    .ok (j :: js)

end

/-- `ArrowSchemaToJson`. -/
def arrowSchemaToJson : ArrowSchema → Except Error Json
  | .mk _ _ _ _ _ children => do
    let fields ← fieldsToJson children
    .ok (.object [(ascii "fields", .array fields)])

/-- A wire type that is accepted comes back from the type it names. -/
theorem wireType_back {wt : Int} {type : ArrowType}
    (h : wireTypeToNanoarrowType wt = .ok type) : nanoarrowTypeToWireType type = wt := by
  unfold wireTypeToNanoarrowType at h
  split at h <;> cases h <;> rfl

/-! ## What a client reads -/

/-- The attributes of one field as the client reads them; a member that is missing has no
value, except that a missing `fieldNumber` counts as 0. -/
structure FieldDescriptor where
  name : Option Json
  fieldNumber : Json
  wireType : Option Json
  nullable : Option Json

/-- `parseFieldDescriptor`, without the nested descriptors. -/
def parseFieldDescriptor (j : Json) : FieldDescriptor where
  name := j.find? "name"
  fieldNumber :=
    match j.find? "fieldNumber" with
    | none | some .null => .integer 0
    | some number => number
  wireType := j.find? "wireType"
  nullable := j.find? "nullable"

/-- `parseSchemaFromJson`. -/
def parseSchemaFromJson (j : Json) : List FieldDescriptor :=
  match j.find? "fields" with
  | some (.array fields) => fields.map parseFieldDescriptor
  | _ => []

/-- A field that the way through the Arrow schema leaves as it is. -/
structure Kept (f : Json) : Prop where
  name : ∀ name, f.find? "name" = some (.string name) → 0 ∉ name
  wireType : ∀ n, f.find? "wireType" = some (.integer n) → -2 ^ 31 ≤ n ∧ n < 2 ^ 31
  nullable : f.find? "nullable" = some (.boolean true)
  fieldNumber : f.find? "fieldNumber" = none ∨ f.find? "fieldNumber" = some .null ∨
    f.find? "fieldNumber" = some (.integer 0)

/-- Every field of the schema is kept. -/
def Forwardable (j : Json) : Prop :=
  ∀ fields, j.find? "fields" = some (.array fields) → ∀ f ∈ fields, Kept f

/-! ## Forwarding -/

/-- The JSON of a field that was built from a name and an accepted wire type. -/
def forwarded (name : Bytes) (wt : Int) : Json :=
  .object [(ascii "name", .string name), (ascii "nullable", .boolean true),
    (ascii "wireType", .integer wt)]

theorem fieldToJson_scalarField {wt : Int} {type : ArrowType} (name : Bytes)
    (h : wireTypeToNanoarrowType wt = .ok type) :
    fieldToJson (scalarField name type) = .ok (forwarded (name.takeWhile (· != 0)) wt) := by
  have hback := wireType_back h
  -- none of the accepted types is nested
  unfold wireTypeToNanoarrowType at h
  split at h <;> cases h <;> rfl

theorem takeWhile_ne_zero_iff (name : Bytes) : name.takeWhile (· != 0) = name ↔ 0 ∉ name := by
  rw [takeWhile_eq_self_iff]
  constructor
  · intro h hz
    have := h 0 hz
    simp at this
  · intro h c hc
    by_cases hz : c = 0
    · subst hz; exact absurd hc h
    · simpa using hz

theorem toInt32_eq_self_iff (n : Int) : toInt32 n = n ↔ -2 ^ 31 ≤ n ∧ n < 2 ^ 31 := by
  unfold toInt32
  rw [Int.bmod_def]
  split <;> omega

theorem fieldNumber_zero_iff (f : Json) : (parseFieldDescriptor f).fieldNumber = .integer 0 ↔
      f.find? "fieldNumber" = none ∨ f.find? "fieldNumber" = some .null ∨
        f.find? "fieldNumber" = some (.integer 0) := by
  unfold parseFieldDescriptor
  split
  · next h => simp [h]
  · next h => simp [h]
  · next _ hnull hsome =>
    rw [hsome]
    constructor
    · intro h
      exact Or.inr (Or.inr (congrArg some h))
    · intro h
      rcases h with h | h | h
      · cases h
      · exact absurd (Option.some.inj h) hnull
      · exact Option.some.inj h

/-- One field is read back as it was written exactly when it is kept. -/
theorem parseFieldDescriptor_forwarded {f : Json} {name : Bytes} {n : Int}
    (hname : f.find? "name" = some (.string name))
    (hwire : f.find? "wireType" = some (.integer n)) :
    parseFieldDescriptor (forwarded (name.takeWhile (· != 0)) (toInt32 n)) =
      parseFieldDescriptor f ↔ Kept f := by
  have hread : parseFieldDescriptor (forwarded (name.takeWhile (· != 0)) (toInt32 n)) =
      ⟨some (.string (name.takeWhile (· != 0))), .integer 0, some (.integer (toInt32 n)),
        some (.boolean true)⟩ := rfl
  rw [hread]
  constructor
  · intro h
    have hn := congrArg FieldDescriptor.name h
    have hw := congrArg FieldDescriptor.wireType h
    have hb := congrArg FieldDescriptor.nullable h
    have hf := congrArg FieldDescriptor.fieldNumber h
    refine ⟨?_, ?_, hb.symm, (fieldNumber_zero_iff f).mp hf.symm⟩
    · intro _ hname'
      rw [hname, Option.some_inj, Json.string.injEq] at hname'
      subst hname'
      have hcut := hn.trans hname
      rw [Option.some_inj, Json.string.injEq] at hcut
      exact (takeWhile_ne_zero_iff name).mp hcut
    · intro _ hwire'
      rw [hwire, Option.some_inj, Json.integer.injEq] at hwire'
      subst hwire'
      have hnar := hw.trans hwire
      rw [Option.some_inj, Json.integer.injEq] at hnar
      exact (toInt32_eq_self_iff n).mp hnar
  · intro h
    have hcut := (takeWhile_ne_zero_iff name).mpr (h.name name hname)
    have hnar := (toInt32_eq_self_iff n).mpr (h.wireType n hwire)
    have hnum := (fieldNumber_zero_iff f).mpr h.fieldNumber
    rw [hcut, hnar, ← hname, ← hwire, ← h.nullable, ← hnum]
    rfl

/-- What an accepted field holds. -/
theorem childOfJson_ok {index : Nat} {f : Json} {child : ArrowSchema}
    (h : childOfJson index f = .ok child) :
    ∃ name n type, f.find? "name" = some (.string name) ∧ f.find? "wireType" = some (.integer n) ∧
      wireTypeToNanoarrowType (toInt32 n) = .ok type ∧ child = scalarField name type := by
  unfold childOfJson at h
  split at h
  · next name hname =>
    split at h
    · next n hwire =>
      cases htype : wireTypeToNanoarrowType (toInt32 n) with
      | error e => rw [htype] at h; cases h
      | ok type =>
        rw [htype] at h
        cases h
        exact ⟨name, n, type, hname, hwire, htype, rfl⟩
    · cases h
  · cases h

theorem fieldsToJson_childrenOfJson (fs : List Json) (index children)
    (h : childrenOfJson index fs = .ok children) :
    ∃ replies, fieldsToJson children = .ok replies ∧
      (replies.map parseFieldDescriptor = fs.map parseFieldDescriptor ↔ ∀ f ∈ fs, Kept f) := by
  induction fs generalizing index children with
  | nil =>
    cases h
    exact ⟨[], rfl, by simp⟩
  | cons f fs ih =>
    rw [childrenOfJson] at h
    cases hch : childOfJson index f with
    | error e => rw [hch] at h; cases h
    | ok _ =>
      rw [hch] at h
      cases hrest : childrenOfJson (index + 1) fs with
      | error e => rw [hrest] at h; cases h
      | ok rest =>
        rw [hrest] at h
        cases h
        obtain ⟨name, n, _, hname, hwire, htype, hch⟩ := childOfJson_ok hch
        obtain ⟨replies, hrep, hsame⟩ := ih (index + 1) rest hrest
        refine ⟨forwarded (name.takeWhile (· != 0)) (toInt32 n) :: replies, ?_, ?_⟩
        · rw [hch, fieldsToJson, fieldToJson_scalarField name htype, hrep]
          rfl
        · rw [map_cons, map_cons, List.cons.injEq, forall_mem_cons, hsame,
            parseFieldDescriptor_forwarded hname hwire]

/-- A schema that was built from JSON is turned into JSON again; the two read the same to a
client exactly when every field is kept. -/
theorem reply_of_built {j : Json} {schema : ArrowSchema}
    (h : buildArrowSchemaFromJson j = .ok schema) :
    ∃ reply, arrowSchemaToJson schema = .ok reply ∧
      (parseSchemaFromJson reply = parseSchemaFromJson j ↔ Forwardable j) := by
  unfold buildArrowSchemaFromJson at h
  split at h
  · next fields hfs =>
    cases hchi : childrenOfJson 0 fields with
    | error e => rw [hchi] at h; cases h
    | ok children =>
      rw [hchi] at h
      cases h
      obtain ⟨replies, hrep, hsame⟩ := fieldsToJson_childrenOfJson fields 0 children hchi
      refine ⟨.object [(ascii "fields", .array replies)], ?_, ?_⟩
      · rw [arrowSchemaToJson, hrep]
        rfl
      · have hread : parseSchemaFromJson (.object [(ascii "fields", .array replies)]) =
            replies.map parseFieldDescriptor := rfl
        have hsent : parseSchemaFromJson j = fields.map parseFieldDescriptor := by
          rw [parseSchemaFromJson, hfs]
        rw [hread, hsent, hsame, Forwardable]
        constructor
        · intro hkept _ hfs'
          rw [hfs, Option.some_inj, Json.array.injEq] at hfs'
          exact hfs' ▸ hkept
        · intro hkept
          exact hkept fields hfs
  · cases h

/-- The reply on a topic reads to a client as the publisher's schema did, with the same
fields in the same order, exactly when every field is nullable, has no field number of its
own, no zero byte in its name and a wire type that fits an `int`. -/
theorem schema_forwarded_iff (j : Json) (schema : ArrowSchema)
    (h : buildArrowSchemaFromJson j = .ok schema) :
    (∃ reply, arrowSchemaToJson schema = .ok reply ∧
      parseSchemaFromJson reply = parseSchemaFromJson j) ↔ Forwardable j := by
  obtain ⟨reply, hreply, hsame⟩ := reply_of_built h
  constructor
  · intro hback
    obtain ⟨_, hreply', hback⟩ := hback
    rw [hreply, Except.ok.injEq] at hreply'
    subst hreply'
    exact hsame.mp hback
  · intro hkept
    exact ⟨reply, hreply, hsame.mpr hkept⟩

/-- A schema of one field. -/
def oneField (nullable : Bool) (fieldNumber : Int) : Json :=
  .object [(ascii "fields", .array [.object [(ascii "name", .string (ascii "id")),
    (ascii "fieldNumber", .integer fieldNumber), (ascii "wireType", .integer 5),
    (ascii "nullable", .boolean nullable)]])]

theorem schema_forwarded_one :
    (∃ schema reply, buildArrowSchemaFromJson (oneField true 0) = .ok schema ∧
      arrowSchemaToJson schema = .ok reply ∧
      parseSchemaFromJson reply = parseSchemaFromJson (oneField true 0)) := by
  have hkept : Forwardable (oneField true 0) := by
    intro _ hfields f hf
    cases hfields
    rw [mem_singleton] at hf
    subst hf
    refine ⟨?_, ?_, rfl, Or.inr (Or.inr rfl)⟩
    · intro _ hname
      cases hname
      decide
    · intro n hn
      cases hn
      decide
  obtain ⟨reply, hreply, hsame⟩ := (schema_forwarded_iff (oneField true 0) _ rfl).mpr hkept
  exact ⟨_, reply, rfl, hreply, hsame⟩

/-- A field that is not nullable and has a number comes back nullable and without one. -/
theorem required_field_changes :
    ∃ schema reply, buildArrowSchemaFromJson (oneField false 1) = .ok schema ∧
      arrowSchemaToJson schema = .ok reply ∧
      (parseSchemaFromJson (oneField false 1)).map (·.nullable) = [some (.boolean false)] ∧
      (parseSchemaFromJson (oneField false 1)).map (·.fieldNumber) = [.integer 1] ∧
      (parseSchemaFromJson reply).map (·.nullable) = [some (.boolean true)] ∧
      (parseSchemaFromJson reply).map (·.fieldNumber) = [.integer 0] :=
  ⟨_, _, rfl, rfl, rfl, rfl, rfl, rfl⟩

end Fletcher.Gateway
