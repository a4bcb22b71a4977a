import Fletcher.Arrow.Array
import Fletcher.Lib.Lists

/-!
# TypeScript descriptors

The TypeScript client works from a tree of field descriptors, which the protoc plugin emits
next to the interfaces. Here is the tree, and the relation that ties it to an Arrow schema:
which descriptor *describes* which Arrow type. Only the layout is compared. Names are the
client's own business, and so is the `nullable` flag, which its codec never looks at.
-/

namespace Fletcher.Ts

open Lib Arrow List

inductive WireTypeId where
  | unknown
  | bool | int8 | int16 | int32 | int64 | uint8 | uint16 | uint32 | uint64
  | float32 | float64
  | string | binary
  | date32 | date64 | timestampNano | time32 | time64 | durationNano
  | fixedSizeBinary | halfFloat | decimal128 | decimal256
  | largeString | largeBinary | stringView | binaryView
  | intervalMonths | intervalDayTime | intervalMonthDayNano
  | struct | list | largeList | fixedSizeList | map | sparseUnion | denseUnion
  deriving DecidableEq, Repr

/-- The numbers of the enumeration. -/
def WireTypeId.code : WireTypeId → Nat
  | .unknown => 0x00
  | .bool => 0x01
  | .int8 => 0x02
  | .int16 => 0x03
  | .int32 => 0x04
  | .int64 => 0x05
  | .uint8 => 0x06
  | .uint16 => 0x07
  | .uint32 => 0x08
  | .uint64 => 0x09
  | .float32 => 0x0a
  | .float64 => 0x0b
  | .string => 0x0c
  | .binary => 0x0d
  | .date32 => 0x0e
  | .date64 => 0x0f
  | .timestampNano => 0x10
  | .time32 => 0x11
  | .time64 => 0x12
  | .durationNano => 0x13
  | .fixedSizeBinary => 0x14
  | .halfFloat => 0x15
  | .decimal128 => 0x16
  | .decimal256 => 0x17
  | .largeString => 0x18
  | .largeBinary => 0x19
  | .stringView => 0x1a
  | .binaryView => 0x1b
  | .intervalMonths => 0x1c
  | .intervalDayTime => 0x1d
  | .intervalMonthDayNano => 0x1e
  | .struct => 0x20
  | .list => 0x21
  | .largeList => 0x22
  | .fixedSizeList => 0x23
  | .map => 0x24
  | .sparseUnion => 0x25
  | .denseUnion => 0x26

/-- `wt.toString(16)`. -/
def WireTypeId.hex (wireType : WireTypeId) : String := String.ofList (Nat.toDigits 16 wireType.code)

/-- `FieldDescriptor`. An absent `fields` is read as an empty one everywhere. -/
inductive FieldDescriptor where
  | mk (name : String) (wireType : WireTypeId) (nullable : Bool)
    (element mapKey mapValue : Option FieldDescriptor) (fields : List FieldDescriptor)
    (fixedSize : Option Nat)
  deriving Repr

namespace FieldDescriptor

def name : FieldDescriptor → String
  | ⟨name, _, _, _, _, _, _, _⟩ => name

def wireType : FieldDescriptor → WireTypeId
  | ⟨_, wireType, _, _, _, _, _, _⟩ => wireType

def element : FieldDescriptor → Option FieldDescriptor
  | ⟨_, _, _, element, _, _, _, _⟩ => element

def mapKey : FieldDescriptor → Option FieldDescriptor
  | ⟨_, _, _, _, mapKey, _, _, _⟩ => mapKey

def mapValue : FieldDescriptor → Option FieldDescriptor
  | ⟨_, _, _, _, _, mapValue, _, _⟩ => mapValue

def fields : FieldDescriptor → List FieldDescriptor
  | ⟨_, _, _, _, _, _, fields, _⟩ => fields

def fixedSize : FieldDescriptor → Option Nat
  | ⟨_, _, _, _, _, _, _, fixedSize⟩ => fixedSize

end FieldDescriptor

/-- Induction that hands a descriptor the hypotheses of all its parts. -/
@[elab_as_elim, induction_eliminator]
theorem FieldDescriptor.induction {P : FieldDescriptor → Prop}
    (mk : ∀ name wireType nullable element mapKey mapValue fields fixedSize,
      (∀ e, element = some e → P e) → (∀ k, mapKey = some k → P k) →
      (∀ v, mapValue = some v → P v) → (∀ f ∈ fields, P f) →
      P ⟨name, wireType, nullable, element, mapKey, mapValue, fields, fixedSize⟩)
    (fd : FieldDescriptor) : P fd := by
  refine @FieldDescriptor.rec P (fun o => ∀ fd, o = some fd → P fd) (fun fs => ∀ f ∈ fs, P f)
    (fun name wireType nullable element mapKey mapValue fields fixedSize =>
      mk name wireType nullable element mapKey mapValue fields fixedSize)
    (by simp) (fun fd h fd' heq => Option.some.inj heq ▸ h) (by simp) ?_ fd
  intro f fs hf hfs g hg
  rcases mem_cons.mp hg with rfl | hg
  · exact hf
  · exact hfs g hg

/-- `SchemaDescriptor`: its fields. -/
abbrev SchemaDescriptor := List FieldDescriptor

/-- The wire type of a fixed-width Arrow type. A timestamp or a duration has one in
nanoseconds only, and a fixed-size binary none the codec can read. -/
def wireTypeOf : FixedType → Option WireTypeId
  | .int8 => some .int8
  | .int16 => some .int16
  | .int32 => some .int32
  | .int64 => some .int64
  | .uint8 => some .uint8
  | .uint16 => some .uint16
  | .uint32 => some .uint32
  | .uint64 => some .uint64
  | .halfFloat => some .halfFloat
  | .float => some .float32
  | .double => some .float64
  | .date32 => some .date32
  | .date64 => some .date64
  | .time32 _ => some .time32
  | .time64 _ => some .time64
  | .timestamp .nano _ => some .timestampNano
  | .timestamp _ _ => none
  | .duration .nano => some .durationNano
  | .duration _ => none
  | .intervalMonths => some .intervalMonths
  | .intervalDayTime => some .intervalDayTime
  | .intervalMonthDayNano => some .intervalMonthDayNano
  | .decimal128 _ _ => some .decimal128
  | .decimal256 _ _ => some .decimal256
  | .fixedSizeBinary _ => none

def wireTypeOfVar : VarType → WireTypeId
  | .string => .string
  | .binary => .binary
  | .largeString => .largeString
  | .largeBinary => .largeBinary
  | .stringView => .stringView
  | .binaryView => .binaryView

def wireTypeOfList : ListKind → WireTypeId
  | .list => .list
  | .largeList => .largeList

def wireTypeOfUnion : UnionMode → WireTypeId
  | .sparse => .sparseUnion
  | .dense => .denseUnion

/-- The most elements a JavaScript array can have. -/
def maxArrayLength : Nat := 2 ^ 32 - 1

mutual

/-- The descriptor has the layout of the Arrow type. A descriptor's union has no type codes
of its own: they are the positions of its children. Arrow keeps a list size in 31 bits. -/
def Describes : DataType → FieldDescriptor → Prop
  | .bool, fd => fd.wireType = .bool
  | .fixed t, fd => wireTypeOf t = some fd.wireType
  | .var t, fd => fd.wireType = wireTypeOfVar t
  | .struct fields, fd =>
    fd.wireType = .struct ∧ fields.length ≤ maxArrayLength ∧ DescribesAll fields fd.fields
  | .list kind ⟨_, t, _⟩, fd =>
    fd.wireType = wireTypeOfList kind ∧ ∃ e, fd.element = some e ∧ Describes t e
  | .fixedSizeList ⟨_, t, _⟩ n, fd =>
    fd.wireType = .fixedSizeList ∧ n < 2 ^ 31 ∧ fd.fixedSize = some n ∧
      ∃ e, fd.element = some e ∧ Describes t e
  | .map ⟨_, kt, _⟩ ⟨_, vt, _⟩ _, fd =>
    fd.wireType = .map ∧ (∃ k, fd.mapKey = some k ∧ Describes kt k) ∧
      ∃ v, fd.mapValue = some v ∧ Describes vt v
  | .union mode fields codes, fd =>
    fd.wireType = wireTypeOfUnion mode ∧
      codes = (List.range fields.length).map UInt8.ofNat ∧ fields.length ≤ 128 ∧
        DescribesAll fields fd.fields
  | .dictionary _ _ _, _ => False
  | .unsupported _, _ => False

def DescribesAll : List Field → List FieldDescriptor → Prop
  | [], fds => fds = []
  | ⟨_, t, _⟩ :: fs, fds => ∃ fd rest, fds = fd :: rest ∧ Describes t fd ∧ DescribesAll fs rest

end

/-- The descriptor has the layout of the schema. -/
def DescribesSchema (schema : Schema) (sd : SchemaDescriptor) : Prop :=
  schema.length ≤ maxArrayLength ∧ DescribesAll schema sd

theorem describesAll_iff : ∀ {fields : List Field} {fds : List FieldDescriptor},
    DescribesAll fields fds ↔ Forall₂ (fun f fd => Describes f.type fd) fields fds
  | [], fds => by
    rw [DescribesAll]
    exact ⟨fun h => h ▸ .nil, fun h => by cases h; rfl⟩
  | ⟨_, t, _⟩ :: fs, fds => by
    rw [DescribesAll]
    constructor
    · rintro ⟨fd, _, rfl, hfd, hrest⟩
      exact .cons hfd (describesAll_iff.mp hrest)
    · intro h
      cases h with
      | cons hfd hrest => exact ⟨_, _, rfl, hfd, describesAll_iff.mpr hrest⟩

/-- Induction over what is described: the parts of the descriptor are in view, and the
hypotheses are about pairs of a type and its descriptor. -/
@[elab_as_elim]
theorem Describes.induction {P : DataType → FieldDescriptor → Prop}
    (bool : ∀ {n nl e k v fs s}, P .bool ⟨n, .bool, nl, e, k, v, fs, s⟩)
    (fixed : ∀ {t fd}, wireTypeOf t = some fd.wireType → P (.fixed t) fd)
    (var : ∀ {n nl e k v fs s t}, P (.var t) ⟨n, wireTypeOfVar t, nl, e, k, v, fs, s⟩)
    (struct : ∀ {n nl e k v s fields fds}, fields.length ≤ maxArrayLength →
      Forall₂ (fun f fd => P (FieldOf.type f) fd) fields fds →
      P (.struct fields) ⟨n, .struct, nl, e, k, v, fds, s⟩)
    (list : ∀ {n nl k v fs s kind item e}, P (FieldOf.type item) e →
      P (.list kind item) ⟨n, wireTypeOfList kind, nl, some e, k, v, fs, s⟩)
    (fixedSizeList : ∀ {n nl k v fs item e size}, size < 2 ^ 31 → P (FieldOf.type item) e →
      P (.fixedSizeList item size) ⟨n, .fixedSizeList, nl, some e, k, v, fs, some size⟩)
    (map : ∀ {n nl e fs s sorted key item k v}, P (FieldOf.type key) k →
      P (FieldOf.type item) v → P (.map key item sorted) ⟨n, .map, nl, e, some k, some v, fs, s⟩)
    (union : ∀ {n nl e k v s mode fields fds}, fields.length ≤ 128 →
      Forall₂ (fun f fd => P (FieldOf.type f) fd) fields fds →
      P (.union mode fields ((List.range fields.length).map UInt8.ofNat))
        ⟨n, wireTypeOfUnion mode, nl, e, k, v, fds, s⟩)
    {t : DataType} {fd : FieldDescriptor} (h : Describes t fd) : P t fd := by
  induction t generalizing fd with
  | bool =>
    obtain ⟨_, _, _, _, _, _, _, _⟩ := fd
    cases (h : _ = WireTypeId.bool)
    exact bool
  | fixed t => exact fixed h
  | var t =>
    obtain ⟨_, _, _, _, _, _, _, _⟩ := fd
    cases (h : _ = wireTypeOfVar t)
    exact var
  | struct fields ih =>
    obtain ⟨_, _, _, _, _, _, fds, _⟩ := fd
    obtain ⟨hwire, hlen, hds⟩ := h
    cases (hwire : _ = WireTypeId.struct)
    exact struct hlen (forall₂_imp_mem (describesAll_iff.mp hds) fun f hf fd hfd => ih f hf hfd)
  | list kind item ih =>
    obtain ⟨_, _, _, element, _, _, _, _⟩ := fd
    obtain ⟨hwire, e, he, h⟩ := h
    cases (hwire : _ = wireTypeOfList kind)
    cases (he : element = some e)
    exact list (ih h)
  | fixedSizeList item size ih =>
    obtain ⟨_, _, _, element, _, _, _, fixedSize⟩ := fd
    obtain ⟨hwire, hlt, hsize, e, he, h⟩ := h
    cases (hwire : _ = WireTypeId.fixedSizeList)
    cases (hsize : fixedSize = some size)
    cases (he : element = some e)
    exact fixedSizeList hlt (ih h)
  | map key item _ ihk ihv =>
    obtain ⟨_, _, _, _, mapKey, mapValue, _, _⟩ := fd
    obtain ⟨hwire, ⟨k, hk, hkd⟩, v, hv, hvd⟩ := h
    cases (hwire : _ = WireTypeId.map)
    cases (hk : mapKey = some k)
    cases (hv : mapValue = some v)
    exact map (ihk hkd) (ihv hvd)
  | union mode fields _ ih =>
    obtain ⟨_, _, _, _, _, _, fds, _⟩ := fd
    obtain ⟨hwire, rfl, hcnt, hds⟩ := h
    cases (hwire : _ = wireTypeOfUnion mode)
    exact union hcnt (forall₂_imp_mem (describesAll_iff.mp hds) fun f hf fd hfd => ih f hf hfd)
  | dictionary | unsupported => exact h.elim

/-- What is described, the row codec carries. -/
theorem Describes.supported {t : DataType} {fd : FieldDescriptor} (h : Describes t fd) :
    t.supported = true := by
  refine h.induction rfl ?fixed rfl ?struct ?list ?fixedSizeList ?map ?union <;> intros
  case fixed => rfl
  case struct ih =>
    rw [DataType.supported, fieldsSupported_iff]
    exact forall_mem_of_forall₂ ih
  case list ih => exact ih
  case fixedSizeList ih => exact ih
  case map ihk ihv => exact supported_map.mpr ⟨ihk, ihv⟩
  case union ih => exact supported_union.mpr ⟨by simp, forall_mem_of_forall₂ ih⟩

/-- Codes that count up from `start` select the child they count to. -/
theorem childIdFrom_range' (code : UInt8) : ∀ (m start : Nat), start + m ≤ 256 →
    childIdFrom code ((range' start m).map UInt8.ofNat) start =
      if start ≤ code.toNat ∧ code.toNat < start + m then some code.toNat else none
  | 0, start, _ => by
    rw [if_neg (by omega)]
    rfl
  | m + 1, start, hle => by
    have hsta : (UInt8.ofNat start = code) ↔ start = code.toNat := by
      rw [← UInt8.toNat_inj, UInt8.toNat_ofNat', Nat.mod_eq_of_lt (by omega)]
    rw [range'_succ, map_cons, childIdFrom, childIdFrom_range' code m (start + 1) (by omega)]
    by_cases hin : start + 1 ≤ code.toNat ∧ code.toNat < start + 1 + m
    · have hwide : start ≤ code.toNat ∧ code.toNat < start + (m + 1) := by omega
      rw [if_pos hin, if_pos hwide]
    · rw [if_neg hin]
      by_cases heq : start = code.toNat
      · simp only [hsta, if_pos heq]
        rw [if_pos (by omega), heq]
      · simp only [hsta, if_neg heq]
        rw [if_neg (by omega)]

/-- The child of a described union is the one at the code's own position. -/
theorem childId_range {n : Nat} (hn : n ≤ 128) (code : UInt8) :
    childId ((List.range n).map UInt8.ofNat) code =
      if code.toNat < n then some code.toNat else none := by
  rw [childId, range_eq_range', childIdFrom_range' code n 0 (by omega), Nat.zero_add]
  by_cases hcode : code.toNat < n
  · rw [if_neg (by omega), if_pos ⟨Nat.zero_le _, hcode⟩, if_pos hcode]
  · have hout : ¬ (0 ≤ code.toNat ∧ code.toNat < n) := by omega
    rw [if_neg hcode, if_neg hout]
    exact ite_self _

end Fletcher.Ts
