import Fletcher.Bridge.CodecEncode
import Fletcher.Bridge.Grammar

/-!
# One value, two paths

`EncodeElement` takes an array and an index, `EncodeScalarValue` a scalar. The scalar
`GetScalar` makes of the slot (`getScalar`) holds what the slot holds: it is well formed, null
where the slot is null, and reads as the slot reads (`getScalar_holds`). Every layout has an
offset convention of its own here: the children of a struct and of a sparse union are windowed
to it, those of a list and of a dense union are not. Both encoders write the wire format of what
they are given, so they write the same.

The other short cuts of the codec are runs of a fixed width without a null. The encoder writes
one out in a single append (`encodeElements_eq`) and the decoder reads one with a single copy.
-/

namespace Fletcher.Arrow.ArrayData

open Lib Scalar

mutual

/-- `Array::GetScalar(i)`. Whether a slot is null is said by the scalar's validity. -/
def getScalar : DataType → ArrayData → Nat → Scalar
  | .struct fields, .struct s children, i =>
    if s.isNull i then .null
    else .struct (List.zipWith (fun get c => get c i) (getScalars fields)
      (ArrayData.fields s children))
  | .list _ _, .list s offsets values, i =>
    if s.isNull i then .null
    else
      let (start, len) := valueRange s offsets i
      .list (values.slice start len)
  | .fixedSizeList _ n, .fixedSizeList s values, i =>
    if s.isNull i then .null else .list (values.slice ((s.offset + i) * n) n)
  | .map _ _ _, .map s offsets keys items, i =>
    if s.isNull i then .null
    else
      let (start, len) := valueRange s offsets i
      .map (.struct ⟨len, start, none⟩ [keys, items])
  | .union .sparse fields codes, .sparseUnion s types children, i =>
    if isNull (.union .sparse fields codes) (.sparseUnion s types children) i then .null
    else .sparseUnion (types.getD (s.offset + i) 0)
      (List.zipWith (fun get c => get c i) (getScalars fields) (ArrayData.fields s children))
  | .union .dense fields codes, a, i =>
    if isNull (.union .dense fields codes) a i then .null
    else
      match a.unionSlot codes i with
      | some u =>
        match (getScalars fields)[u.child]? with
        | some get => .denseUnion u.code (get u.array u.index)
        | none => .null
      | none => .null
  | .dictionary _ t _, .dictionary s indices values, i =>
    if s.isNull i then .null else .dictionary t (some (indices.getD (s.offset + i) 0)) values
  | t, a, i => (leafAt t a i).getD .null

/-- The same for a slot of each field's type. -/
def getScalars : List Field → List (ArrayData → Nat → Scalar)
  | [] => []
  | ⟨_, t, _⟩ :: fs => getScalar t :: getScalars fs

end

theorem getScalars_eq_map : ∀ fields, getScalars fields = fields.map (fun f => getScalar f.type)
  | [] => rfl
  | ⟨_, t, _⟩ :: fs => by rw [getScalars, getScalars_eq_map fs]; rfl

/-- The scalar holds what slot `i` of the array holds. -/
structure Holds (t : DataType) (a : ArrayData) (i : Nat) (s : Scalar) : Prop where
  valid : s.Valid t
  isNull : s.isNull = a.isNull t i
  value : s.valueOf t = a.valueAt t i
  resolves : s.Resolves t ↔ a.Resolves t i

variable {t : DataType} {a : ArrayData} {i : Nat} {s : Slots}

theorem holds_null (ht : t.carried = true) (h : a.Valid t) (hi : i < a.length)
    (hn : a.isNull t i = true) : Holds t a i .null := by
  have hr := resolves_of_isNull h hi hn
  have hvalue : (a.valueAt t i).isNull = true := by
    rw [valueAt_isNull_of_resolves ht h hi hr, hn]
  refine ⟨by cases t <;> trivial, hn.symm, ?_, iff_of_true (by cases t <;> trivial) hr⟩
  rw [valueOf_null, Value.isNull_iff.mp hvalue]

theorem holds_ite (h : a.Valid t) (hi : i < a.length) (ht : t.carried = true) {c : Scalar}
    (hlive : a.isNull t i = false → Holds t a i c) :
    Holds t a i (if a.isNull t i then .null else c) := by
  cases hn : a.isNull t i with
  | true => exact holds_null ht h hi hn
  | false => exact hlive hn

/-- A scalar through which a slot of a windowed child is read. -/
theorem Holds.of_slice {off len : Nat} {c : Scalar} (h : Holds t (a.slice off len) i c) :
    Holds t a (off + i) c := by
  obtain ⟨hval, hnull, hvalue, hr⟩ := h
  rw [isNull_slice] at hnull
  rw [valueAt_slice] at hvalue
  rw [resolves_slice] at hr
  exact ⟨hval, hnull, hvalue, hr⟩

theorem range'_eq_map (start len : Nat) :
    List.range' start len = (List.range' 0 len).map (start + ·) := by
  rw [List.map_add_range', Nat.add_zero]

/-- A run of elements is read off its slice, -/
theorem map_slice (t : DataType) (a : ArrayData) (start len : Nat) :
    (List.range' 0 len).map ((a.slice start len).valueAt t) =
      (List.range' start len).map (a.valueAt t) := by
  rw [range'_eq_map start, List.map_map]
  exact List.map_congr_left fun j _ => valueAt_slice ..

/-- and resolves there. -/
theorem resolves_run (t : DataType) (a : ArrayData) (start len : Nat) :
    (∀ j ∈ List.range' 0 len, (a.slice start len).Resolves t j) ↔
      ∀ j ∈ List.range' start len, a.Resolves t j := by
  rw [range'_eq_map start, List.forall_mem_map]
  exact forall₂_congr fun j _ => resolves_slice ..

theorem valueRange_le {offsets : List Nat} {limit : Nat} (h : OffsetsIn s offsets limit)
    (hi : i < s.length) : (valueRange s offsets i).1 + (valueRange s offsets i).2 ≤ limit := by
  obtain ⟨-, _, _⟩ := h i hi
  simp only [valueRange]
  omega

/-- Children windowed to their parent, each by its own scalar. -/
theorem holds_fields {fields : List Field} {children : List ArrayData} (hi : i < s.length)
    (ih : ∀ f ∈ fields, ∀ {a : ArrayData} {i : Nat}, a.Valid f.type → i < a.length →
      Holds f.type a i (getScalar f.type a i))
    (h : List.Forall₂ (fun f c => c.Valid f.type ∧ s.offset + s.length ≤ c.length) fields
      children) :
    List.Forall₂ (fun f c => Holds f.type c (s.offset + i)
      (getScalar f.type (c.slice s.offset s.length) i)) fields children := by
  refine forall₂_imp_mem h fun f hf c ⟨hv, hl⟩ => ?_
  exact (ih f hf (valid_slice hv hl) (by rwa [length_slice])).of_slice

theorem zipWith_getScalars (fields : List Field) (children : List ArrayData) :
    List.zipWith (fun get c => get c i) (getScalars fields) (ArrayData.fields s children) =
      List.zipWith (fun f c => getScalar f.type (c.slice s.offset s.length) i) fields children := by
  rw [getScalars_eq_map, ArrayData.fields, List.zipWith_map]

/-- A union scalar holds what its slot holds if the active child does. -/
theorem holds_union {mode : UnionMode} {fields : List Field} {codes : List UInt8} {u : UnionSlot}
    {f : Field} {v c : Scalar} (hu : a.unionSlot codes i = some u) (hf : fields[u.child]? = some f)
    (hn : a.isNull (.union mode fields codes) i = false) (hc : Holds f.type u.array u.index c)
    (hshp : (mode = .sparse ∧ ∃ cs, v = .sparseUnion u.code cs ∧ cs[u.child]? = some c) ∨
      (mode = .dense ∧ v = .denseUnion u.code c))
    (hv : v.Valid (.union mode fields codes)) : Holds (.union mode fields codes) a i v := by
  have hk := unionSlot_childId hu
  refine ⟨hv, ?_, ?_, ?_⟩
  · rw [hn]
    rcases hshp with ⟨-, cs, rfl, -⟩ | ⟨-, rfl⟩
    · rfl
    · rfl
  · rw [valueOf_child hk hf hshp, valueAt_union hu hf, hc.value]
  · rw [resolves_child hk hf hshp, resolves_union hu hf, hc.resolves]

/-- **The scalar of a slot holds what the slot holds.** -/
theorem getScalar_holds (ht : t.carried = true) (h : a.Valid t)
    (hi : i < a.length) : Holds t a i (getScalar t a i) := by
  induction ht using DataType.carried_rec generalizing a i with
  | bool | fixed _ | var _ =>
    obtain ⟨_, hleaf, hv, hn, hread⟩ := leafAt_eq (by grind [DataType.dictionaryValue]) h
      (k := i)
    rw [getScalar, hleaf, Option.getD_some]
    · exact ⟨hv, hn, hread, iff_of_true trivial trivial⟩
    all_goals simp
  | dictionary _ t _ ht ih =>
    cases a with
    | dictionary s _ values =>
      rw [getScalar]
      refine holds_ite h hi ht fun (hn : s.isNull i = false) => ?_
      obtain ⟨hv, hlt⟩ := dictionary_entry h hi hn
      refine ⟨⟨rfl, hv⟩, hn.symm, ?_, ?_⟩
      · rw [valueAt, if_neg (by simp [hn]), valueOf]
      · rw [Resolves, imp_iff_right hn]
        constructor
        · rintro ⟨k, hk, -, hent⟩
          cases hk
          exact hent
        · intro hent
          exact ⟨_, rfl, hlt, hent⟩
    | _ => cases h
  | struct fields ht ih =>
    cases a with
    | struct s children =>
      rw [getScalar, zipWith_getScalars]
      refine holds_ite h hi ht fun (hn : s.isNull i = false) => ?_
      have hch := holds_fields (s := s) hi ih (valid_struct.mp h)
      refine ⟨?_, hn.symm, ?_, ?_⟩
      · exact Scalar.valid_struct.mpr (forall₂_zipWith hch fun f _ c hc => hc.valid)
      · rw [valueAt_struct hn, valueOf_struct,
          zipWith_zipWith hch fun f _ c hc => hc.value]
      · rw [Resolves, imp_iff_right hn, fieldsResolve_eq_map, List.forall₂_map_left_iff,
          Scalar.Resolves, Scalar.fieldsResolve_eq_map, List.forall₂_map_left_iff]
        exact forall₂_zipWith_iff hch fun f _ c hc => hc.resolves
    | _ => cases h
  | list _ item ht ih =>
    cases a with
    | list s offsets values =>
      rw [getScalar]
      refine holds_ite h hi ht fun (hn : s.isNull i = false) => ?_
      refine ⟨valid_slice h.2 (valueRange_le h.1 hi), hn.symm, ?_, ?_⟩
      · rw [valueAt, if_neg (by simp [hn]), valueOf,
          readAll_eq, length_slice, map_slice]
      · rw [Resolves, imp_iff_right hn, Scalar.Resolves, length_slice]
        exact resolves_run ..
    | _ => cases h
  | fixedSizeList item n ht ih =>
    cases a with
    | fixedSizeList s values =>
      rw [getScalar]
      refine holds_ite h hi ht fun (hn : s.isNull i = false) => ?_
      have hend : (s.offset + i) * n + n ≤ values.length := by
        rw [← Nat.succ_mul]
        exact Nat.le_trans (Nat.mul_le_mul_right n (Nat.add_lt_add_left hi s.offset)) h.1
      refine ⟨⟨valid_slice h.2 hend, length_slice ..⟩, hn.symm, ?_, ?_⟩
      · rw [valueAt, if_neg (by simp [hn]), valueOf,
          readAll_eq, length_slice, map_slice]
      · rw [Resolves, imp_iff_right hn, Scalar.Resolves, length_slice]
        exact resolves_run ..
    | _ => cases h
  | map _ item _ ht _ _ =>
    cases a with
    | map s offsets _ _ =>
      rw [getScalar]
      refine holds_ite h hi ht fun (hn : s.isNull i = false) => ?_
      obtain ⟨hk, hv, hkeys, hits⟩ := h
      refine ⟨?_, hn.symm, ?_, ?_⟩
      · refine valid_struct.mpr (.cons ⟨hkeys, ?_⟩ (.cons ⟨hits, ?_⟩ .nil))
        · exact valueRange_le hk hi
        · exact valueRange_le hv hi
      · rw [valueAt, if_neg (by simp [hn]), valueOf,
          readAll_eq, readAll_eq, map_slice, map_slice]
      · rw [Resolves, imp_iff_right hn, Scalar.Resolves]
        simp only [forall_and]
        exact and_congr (resolves_run ..) (resolves_run ..)
    | _ => cases h
  | union mode fields codes ht ih =>
    obtain ⟨u, f, hu, hf, hv, hlt⟩ := unionSlot_valid h hi
    have hmem := List.mem_of_getElem? hf
    cases mode with
    | sparse =>
      cases a with
      | sparseUnion s types children =>
        rw [getScalar, zipWith_getScalars]
        refine holds_ite h hi ht fun hn => ?_
        have hval := h.1
        rw [valids_eq_map, List.forall₂_map_left_iff] at hval
        have hch := holds_fields (s := s) hi ih hval
        have hslot := hu
        simp only [unionSlot, Option.bind_eq_bind, Option.bind_eq_some_iff] at hslot
        obtain ⟨_, hcode, k, hk, c, hc, hslot⟩ := hslot
        injection hslot with hslot
        subst hslot
        obtain ⟨_, hc', hchild⟩ := forall₂_getElem?_left hch hf
        rw [hc, Option.some.injEq] at hc'
        subst hc'
        have hget : (List.zipWith (fun f c => getScalar f.type
            (c.slice s.offset s.length) i) fields children)[k]? =
            some (getScalar f.type (c.slice s.offset s.length) i) := by
          rw [List.getElem?_zipWith, hf, hc]
        rw [getD_of_getElem? hcode]
        refine holds_union hu hf hn hchild (.inl ⟨rfl, _, rfl, hget⟩) ⟨?_, k, _, hk, hget, ?_⟩
        · rw [Scalar.valids_eq_map, List.forall₂_map_left_iff]
          exact forall₂_zipWith hch fun f _ c hc => hc.valid
        · rw [hchild.isNull, ← hn, isNull_union hu hf]
      | _ => cases h
    | dense =>
      rw [getScalar, hu]
      simp only [getScalars_eq_map, List.getElem?_map, hf, Option.map_some]
      refine holds_ite h hi ht fun hn => ?_
      have hchild := ih f hmem hv hlt
      refine holds_union hu hf hn hchild (.inr ⟨rfl, rfl⟩)
        ⟨?_, u.child, _, unionSlot_childId hu, ?_, hchild.valid⟩
      · rw [hchild.isNull, ← hn, isNull_union hu hf]
      · rw [Scalar.valids_eq_map, List.getElem?_map, hf, Option.map_some]

end Fletcher.Arrow.ArrayData

namespace Fletcher.Bridge

open Lib Arrow Fletcher.Core Reader

theorem Encodes.ok_iff {enc : Encode} {ok : Prop} {d : Bytes} {b b' : WriteBuffer}
    (h : Encodes true enc ok d) : enc b = .ok b' ↔ ok ∧ b' = b.append d := by
  constructor
  · intro hb
    have hok := h.accepts rfl ⟨b, b', hb⟩
    rw [h.writes hok, Except.ok.injEq] at hb
    exact ⟨hok, hb.symm⟩
  · rintro ⟨hok, rfl⟩
    exact h.writes hok b

/-- `DecodeListElements` without its bulk run. -/
def decodeElementwise (A : Api) (d : TypeDecoder) (count : Nat) : Read (List Value) := do
  let bitfield ← readBytes (bitfieldBytes count)
  lift (okOrThrow "Codec: list MakeBuilder failed" (A.makeBuilder d.elemType))
  runAll ((nullFlags bitfield count).map (appendSlot A d.elemType d.elem
    "Codec: builder AppendNull failed" "Codec: builder AppendScalar failed"))

theorem keeps_elementwise {A : Api} {t : DataType}
    (h : Keeps (typeDecoder A t).elem (parse t) (Builds A t)) (count : Nat) :
    Keeps (decodeElementwise A (typeDecoder A t) count)
      (parseSlots (List.replicate count (parse t))) fun vs =>
        A.makeBuilder t.element = none ∧ ∀ v ∈ vs, BuildsSlot A t.element (Builds A t) v := by
  unfold decodeElementwise parseSlots
  rw [List.length_replicate, typeDecoder_elemType]
  exact same_take.bind_keeps fun bitfield =>
    keeps_call _ _ (keeps_slotRun h _ _ bitfield count)

/-- **One value, one encoding.** A slot of an array that is not null is encoded as the scalar
made of it is, and both throw where one does; a list body goes out in bulk as it goes out
element by element; and it is read in bulk as it is read element by element. -/
theorem paths_agree {A : Api} (hA : A.Lawful) :
    (∀ t a i, t.carried = true → fixedSizesFit t = true → a.Valid t → i < a.length →
      a.isNull t i = false → ∀ b b', encodeElement A t a i b = .ok b' ↔
        encodeScalarValue A t (a.getScalar t i) b = .ok b') ∧
    (∀ lc a start count t b, encodeElements lc a start count t (encodeElement A t) b =
      setElementNulls lc ((List.range' start count).map (a.isNull t)) 0 b >>=
        writePayloads ((List.range' start count).map (elementSlot t (encodeElement A t) a))) ∧
    (∀ t count, t.carried = true → Same (decodeListElements A (typeDecoder A t) count)
        (decodeElementwise A (typeDecoder A t) count)) := by
  refine ⟨?_, encodeElements_eq A, ?_⟩
  · intro t a i ht hfit hv hi hn b b'
    obtain ⟨hvalid, hnull, hvalue, hres⟩ := ArrayData.getScalar_holds ht hv hi
    have helement := encodeElement_encodes A t ht a i hv hi hn
    have hscalar := encodeScalarValue_encodes hA t ht _ hvalid (hnull.trans hn)
    rw [hfit] at helement hscalar
    rw [helement.ok_iff, hscalar.ok_iff, hres, hvalue]
  · intro t count ht bs p
    have helem := (typeDecoder_keeps hA ht).2
    rw [keeps_listElements hA helem count bs, keeps_elementwise helem count bs]

/-- Lists of bytes. -/
def bytesType : DataType := .list .list ⟨"item", .fixed .uint8, true⟩

/-- A window on the second of two lists. -/
def slicedLists : ArrayData := .list ⟨1, 1, none⟩ [0, 1, 3] (.fixed ⟨3, 0, none⟩ [7, 8, 9])

/-- The scalar of a slot behind an offset is encoded as the slot is. -/
theorem paths_agree_sliced :
    encodeScalarValue Api.permissive bytesType (slicedLists.getScalar bytesType 0) .empty =
      .ok ⟨[2, 0, 0, 0, 0, 8, 9]⟩ := by
  have hvalid : slicedLists.Valid bytesType := by
    refine ⟨by decide, ?_⟩
    show (0 + 3) * 1 ≤ 3
    omega
  have hboth := (paths_agree Api.permissive_lawful).1 bytesType slicedLists 0 rfl rfl hvalid
    Nat.zero_lt_one rfl .empty ⟨[2, 0, 0, 0, 0, 8, 9]⟩
  exact hboth.mp rfl

end Fletcher.Bridge
