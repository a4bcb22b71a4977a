import Fletcher.Arrow.Array
import Fletcher.Lib.Lists

/-!
# Reading arrays

Three facts about the accessors.

**Slicing is re-indexing.** Slot `i` of a slice is slot `off + i` of the array.
This is what makes a struct's windowed children and a list's unsliced child two
views of the same slots.

**`IsNull` agrees with the reading.** A slot of a well-formed array tests null
exactly when its logical value is null.

**A well-formed array holds values of its type.** So nothing downstream has to
assume well-typedness beside validity.
-/

namespace Fletcher.Arrow

open Lib List ArrayData

variable {t : DataType} {i : Nat} {codes : List UInt8} {fields : List Field} {a : ArrayData}
  {u : UnionSlot} {mode : UnionMode} {s : Slots} {f : Field} {types : List UInt8}
  {offsets : List Int} {children : List ArrayData}

namespace ArrayData

/-! ## Slicing is re-indexing -/

theorem slots_slice (a : ArrayData) (off len : Nat) :
    (a.slice off len).slots = ⟨len, a.slots.offset + off, a.slots.validity⟩ := by
  cases a <;> rfl

@[simp] theorem length_slice (a : ArrayData) (off len : Nat) : (a.slice off len).length = len := by
  simp [length, slots_slice]

theorem slots_isNull_slice (s : Slots) (off len i : Nat) :
    Slots.isNull ⟨len, s.offset + off, s.validity⟩ i = s.isNull (off + i) := by
  simp [Slots.isNull, Nat.add_assoc]

theorem getView_slice (a : ArrayData) (off len i : Nat) :
    (a.slice off len).getView i = a.getView (off + i) := by
  cases a <;> simp [slice, getView, Nat.add_assoc]

theorem unionSlot_slice (codes : List UInt8) (a : ArrayData) (off len i : Nat) :
    (a.slice off len).unionSlot codes i = a.unionSlot codes (off + i) := by
  cases a <;> simp [slice, unionSlot, Nat.add_assoc]

theorem isNull_slice (t : DataType) (a : ArrayData) (off len i : Nat) :
    isNull t (a.slice off len) i = isNull t a (off + i) := by
  cases t with
  | union _ _ _ => rw [isNull, isNull, unionSlot_slice]
  | _ => simp only [isNull, slots_slice, slots_isNull_slice]

/-- **Slot `i` of a slice is slot `off + i` of the array.** -/
theorem valueAt_slice (t : DataType) (a : ArrayData) (off len i : Nat) :
    valueAt t (a.slice off len) i = valueAt t a (off + i) := by
  cases t with
  | union _ _ _ => rw [valueAt, valueAt, unionSlot_slice]
  | list kind item | fixedSizeList item n =>
    obtain ⟨_, t, _⟩ := item
    cases a <;> simp only [slice, valueAt, slots_isNull_slice, valueRange, Nat.add_assoc]
  | map key item _ =>
    obtain ⟨_, _, _⟩ := key
    obtain ⟨_, _, _⟩ := item
    cases a <;> simp only [slice, valueAt, slots_isNull_slice, valueRange, Nat.add_assoc]
  | var t => rw [valueAt, valueAt, getView_slice, slots_slice, slots_isNull_slice]
  | _ => cases a <;> simp only [slice, valueAt, slots_isNull_slice, Nat.add_assoc]

theorem resolves_slice (t : DataType) (a : ArrayData) (off len i : Nat) :
    (a.slice off len).Resolves t i ↔ a.Resolves t (off + i) := by
  cases t with
  | union _ _ _ => rw [Resolves, Resolves, unionSlot_slice]
  | list kind item | fixedSizeList item n =>
    obtain ⟨_, t, _⟩ := item
    cases a <;> simp only [slice, Resolves, slots_isNull_slice, valueRange, Nat.add_assoc]
  | map key item _ =>
    obtain ⟨_, _, _⟩ := key
    obtain ⟨_, _, _⟩ := item
    cases a <;> simp only [slice, Resolves, slots_isNull_slice, valueRange, Nat.add_assoc]
  | _ => cases a <;> simp only [slice, Resolves, slots_isNull_slice, Nat.add_assoc]

/-! ## Validity -/

theorem offsetsIn_slice {offsets : List Nat} {limit off len : Nat}
    (h : OffsetsIn s offsets limit) (hle : off + len ≤ s.length) :
    OffsetsIn ⟨len, s.offset + off, s.validity⟩ offsets limit := by
  intro i (_ : i < len)
  simpa only [Nat.add_assoc] using h (off + i) (by omega)

/-- A window inside the array is as well formed as the array. -/
theorem valid_slice {off len : Nat} (h : a.Valid t)
    (hle : off + len ≤ a.length) : (a.slice off len).Valid t := by
  cases t with
  | bool =>
    cases a with
    | bool s values => simp only [slice, Valid, length, slots] at *; omega
    | _ => cases h
  | fixed t =>
    cases a with
    | fixed s values =>
      simp only [slice, Valid, length, slots] at *
      exact Nat.le_trans (Nat.mul_le_mul_right _ (by omega)) h
    | _ => cases h
  | var t =>
    cases a with
    | binary s offsets _ => exact offsetsIn_slice h hle
    | view s _ => simp only [slice, Valid, length, slots] at *; omega
    | _ => cases h
  | struct fields =>
    cases a with
    | struct s children =>
      simp only [slice, Valid, length, slots] at *
      exact h.imp fun ok c ⟨hc, hl⟩ => ⟨hc, by omega⟩
    | _ => cases h
  | list _ item =>
    cases a with
    | list s offsets values => exact ⟨offsetsIn_slice h.1 hle, h.2⟩
    | _ => cases h
  | fixedSizeList item n =>
    cases a with
    | fixedSizeList s values =>
      refine ⟨Nat.le_trans (Nat.mul_le_mul_right _ ?_) h.1, h.2⟩
      simp only [length, slots] at hle ⊢
      omega
    | _ => cases h
  | map _ item _ =>
    cases a with
    | map s offsets _ _ =>
      exact ⟨offsetsIn_slice h.1 hle, offsetsIn_slice h.2.1 hle, h.2.2⟩
    | _ => cases h
  | union mode fields codes =>
    cases mode with
    | sparse =>
      cases a with
      | sparseUnion s types children =>
        simp only [length, slots] at hle
        refine ⟨h.1.imp fun ok c ⟨hc, hl⟩ => ⟨hc, by simp only; omega⟩, fun i hi => ?_⟩
        obtain ⟨u, hu⟩ := h.2 (off + i) (by simp only at hi; omega)
        exact ⟨u, (unionSlot_slice codes (.sparseUnion s types children) off len i).trans hu⟩
      | _ => cases h
    | dense =>
      cases a with
      | denseUnion s types offsets children =>
        simp only [length, slots] at hle
        refine ⟨h.1, fun i hi => ?_⟩
        obtain ⟨u, hu, hlt⟩ := h.2 (off + i) (by simp only at hi; omega)
        exact ⟨u, (unionSlot_slice codes (.denseUnion s types offsets children) off len i).trans
          hu, hlt⟩
      | _ => cases h
  | dictionary _ t _ =>
    cases a with
    | dictionary s _ values =>
      simp only [length, slots] at hle
      refine ⟨fun i hi hn => ?_, h.2⟩
      simp only [slots_isNull_slice] at hi hn
      simpa only [Nat.add_assoc] using h.1 (off + i) (by omega) hn
    | _ => cases h
  | unsupported _ => cases h

theorem unionSlot_sparse (h : (sparseUnion s types children).unionSlot codes i = some u) :
    childId codes u.code = some u.child ∧ children[u.child]? = some u.array ∧
      u.index = s.offset + i := by
  simp only [unionSlot, Option.bind_eq_bind, Option.bind_eq_some_iff] at h
  obtain ⟨code, -, k, hk, c, hc, h⟩ := h
  injection h with h; subst h
  exact ⟨hk, hc, rfl⟩

theorem unionSlot_dense (h : (denseUnion s types offsets children).unionSlot codes i = some u) :
    childId codes u.code = some u.child ∧ children[u.child]? = some u.array := by
  simp only [unionSlot, Option.bind_eq_bind, Option.bind_eq_some_iff] at h
  obtain ⟨code, -, k, hk, c, hc, j, -, h⟩ := h
  injection h with h; subst h
  exact ⟨hk, hc⟩

theorem unionSlot_childId
    (h : a.unionSlot codes i = some u) : childId codes u.code = some u.child := by
  cases a with
  | sparseUnion => exact (unionSlot_sparse h).1
  | denseUnion => exact (unionSlot_dense h).1
  | _ => cases h

/-- Every slot of a well-formed union selects a well-formed child, inside it. -/
theorem unionSlot_valid (h : a.Valid (.union mode fields codes)) (hi : i < a.length) :
    ∃ u f, a.unionSlot codes i = some u ∧ fields[u.child]? = some f ∧ u.array.Valid f.type ∧
      u.index < u.array.length := by
  cases mode with
  | sparse =>
    cases a with
    | sparseUnion s types children =>
      obtain ⟨hch, hslot⟩ := h
      obtain ⟨u, hu⟩ := hslot i hi
      obtain ⟨-, hc, hindex⟩ := unionSlot_sparse hu
      rw [valids_eq_map, forall₂_map_left_iff] at hch
      obtain ⟨f, hf, hv, hl⟩ := forall₂_getElem?_right hch hc
      exact ⟨_, f, hu, hf, hv, by simp only [length, slots] at hi hl ⊢; omega⟩
    | _ => cases h
  | dense =>
    cases a with
    | denseUnion s types _ children =>
      obtain ⟨hch, hslot⟩ := h
      obtain ⟨u, hu, hlt⟩ := hslot i hi
      rw [valids_eq_map, forall₂_map_left_iff] at hch
      obtain ⟨f, hf, hv⟩ := forall₂_getElem?_right hch (unionSlot_dense hu).2
      exact ⟨_, f, hu, hf, hv, hlt⟩
    | _ => cases h

/-- `field(child)` at its own index is the slot the union selects: windowed for a
sparse union, raw for a dense one. -/
theorem unionField_valid (h : a.Valid (.union mode fields codes)) (hi : i < a.length)
    (hu : a.unionSlot codes i = some u) (hv : u.array.Valid f.type)
    (hlt : u.index < u.array.length) :
    (a.unionField u i).1.Valid f.type ∧ (a.unionField u i).2 < (a.unionField u i).1.length ∧
      valueAt f.type (a.unionField u i).1 (a.unionField u i).2 =
        valueAt f.type u.array u.index := by
  cases a with
  | sparseUnion s _ _ =>
    obtain ⟨-, hc, hindex⟩ := unionSlot_sparse hu
    cases mode with
    | sparse =>
      have hch := h.1
      rw [valids_eq_map, forall₂_map_left_iff] at hch
      obtain ⟨g, _, -, hl⟩ := forall₂_getElem?_right hch hc
      rw [hindex]
      exact ⟨valid_slice hv hl, by rw [unionField, length_slice]; exact hi, valueAt_slice ..⟩
    | dense => cases h
  | _ => exact ⟨hv, hlt, rfl⟩

theorem unionField_isNull (hu : a.unionSlot codes i = some u) :
    isNull t (a.unionField u i).1 (a.unionField u i).2 = isNull t u.array u.index := by
  cases a with
  | sparseUnion s _ _ =>
    rw [(unionSlot_sparse hu).2.2]
    exact isNull_slice ..
  | _ => rfl

theorem unionField_resolves (hu : a.unionSlot codes i = some u) :
    (a.unionField u i).1.Resolves t (a.unionField u i).2 ↔ u.array.Resolves t u.index := by
  cases a with
  | sparseUnion s _ _ =>
    rw [(unionSlot_sparse hu).2.2]
    exact resolves_slice ..
  | _ => exact Iff.rfl

/-! ## Null tests -/

/-- The reading of a union slot, through the child it selects. -/
theorem valueAt_union (hu : a.unionSlot codes i = some u) (hf : fields[u.child]? = some f) :
    valueAt (.union mode fields codes) a i =
      Value.underCode u.code (valueAt f.type u.array u.index) := by
  rw [valueAt, hu]
  simp only [valuesAt_eq_map, getElem?_map, hf, Option.map_some]

theorem isNull_union (hu : a.unionSlot codes i = some u) (hf : fields[u.child]? = some f) :
    isNull (.union mode fields codes) a i = isNull f.type u.array u.index := by
  rw [isNull, hu]
  simp only [isNulls_eq_map, getElem?_map, hf, Option.map_some]

theorem resolves_union (hu : a.unionSlot codes i = some u) (hf : fields[u.child]? = some f) :
    Resolves (.union mode fields codes) a i ↔ Resolves f.type u.array u.index := by
  have hok : (fieldsResolve fields)[u.child]? = some (Resolves f.type) := by
    rw [fieldsResolve_eq_map, getElem?_map, hf, Option.map_some]
  rw [Resolves]
  constructor
  · intro h
    exact h u hu _ hok
  · intro h _ hu' _ hok'
    rw [hu] at hu'
    cases hu'
    rw [hok] at hok'
    cases hok'
    exact h

/-- The dictionary entry a valid slot points at, inside the dictionary. -/
theorem dictionary_entry {index : FixedType} {ordered : Bool} {indices : List Nat}
    {values : ArrayData} (h : (dictionary s indices values).Valid (.dictionary index t ordered))
    (hi : i < s.length) (hn : s.isNull i = false) :
    values.Valid t ∧ indices.getD (s.offset + i) 0 < values.length := by
  obtain ⟨k, hk, _⟩ := h.1 i hi hn
  refine ⟨h.2, ?_⟩
  rwa [getD_eq_getElem?_getD, hk, Option.getD_some]

/-- **`IsNull` agrees with the reading** on a well-formed array, unless a dictionary entry
is null. -/
theorem valueAt_isNull_of_resolves (ht : t.carried = true) (h : a.Valid t) (hi : i < a.length)
    (hr : a.Resolves t i) : (valueAt t a i).isNull = isNull t a i := by
  induction ht using DataType.carried_rec generalizing a i with
  | union _ _ _ _ ih =>
    obtain ⟨u, f, hu, hf, hv, hlt⟩ := unionSlot_valid h hi
    have hmem := mem_of_getElem? hf
    rw [valueAt_union hu hf, isNull_union hu hf, Value.underCode_isNull,
      ih f hmem hv hlt ((resolves_union hu hf).mp hr)]
  | dictionary _ t _ _ ih =>
    cases a with
    | dictionary s indices values =>
      simp only [valueAt, isNull, slots]
      cases hn : s.isNull i with
      | true => rfl
      | false =>
        obtain ⟨hv, hlt⟩ := dictionary_entry h hi hn
        have hent := hr hn
        have hleaf : values.Resolves t (indices.getD (s.offset + i) 0) := by
          cases t <;> trivial
        rw [if_neg (by simp), ih hv hlt hleaf, hent]
    | _ => cases h
  | var t =>
    simp only [valueAt, isNull]
    split <;> simp_all [Value.isNull]
  | bool | fixed _ | struct _ _ _ | list _ _ _ _ | fixedSizeList _ _ _ _ | map _ _ _ _ _ _ =>
    -- Only the type's own layout is well formed; its reading tests the validity bit first.
    cases a <;> simp only [Valid] at h
    simp only [valueAt, isNull, slots]
    split <;> simp_all [Value.isNull]

/-- Nothing is read through a null slot. -/
theorem resolves_of_isNull (h : a.Valid t) (hi : i < a.length) (hn : isNull t a i = true) :
    a.Resolves t i := by
  induction t generalizing a i with
  | union _ _ _ ih =>
    obtain ⟨u, f, hu, hf, hv, hlt⟩ := unionSlot_valid h hi
    rw [isNull_union hu hf] at hn
    exact (resolves_union hu hf).mpr (ih f (mem_of_getElem? hf) hv hlt hn)
  | bool | fixed _ | var _ | struct _ _ | list _ _ _ | fixedSizeList _ _ _ | map _ _ _ _ _
  | dictionary _ _ _ _ | unsupported _ =>
    cases a <;> simp_all [Resolves, isNull, slots]

/-! ## Well-typed readings -/

/-- Every slot a list layout's offsets span lies inside the child. -/
theorem valueRange_lt {offsets : List Nat} {limit j : Nat}
    (h : OffsetsIn s offsets limit) (hi : i < s.length)
    (hj : j ∈ range' (valueRange s offsets i).1 (valueRange s offsets i).2) : j < limit := by
  obtain ⟨-, _, _⟩ := h i hi
  simp only [valueRange, mem_range'_1] at hj
  omega

/-- Every slot a fixed-size list spans lies inside the child. -/
theorem fixedRange_lt {n limit j : Nat} (h : (s.offset + s.length) * n ≤ limit)
    (hi : i < s.length) (hj : j ∈ range' ((s.offset + i) * n) n) : j < limit := by
  have hstep : (s.offset + i) * n + n ≤ (s.offset + s.length) * n := by
    rw [← Nat.succ_mul]
    exact Nat.mul_le_mul_right _ (by omega)
  simp only [mem_range'_1] at hj
  omega

/-- The children of a well-formed struct layout, field by field. -/
theorem valid_struct :
    (struct s children).Valid (.struct fields) ↔
      Forall₂ (fun f c => c.Valid f.type ∧ s.offset + s.length ≤ c.length) fields children := by
  rw [Valid, valids_eq_map, forall₂_map_left_iff]

/-- The reading of a struct slot, field by field. -/
theorem valueAt_struct (hn : s.isNull i = false) :
    valueAt (.struct fields) (.struct s children) i =
      .struct (zipWith (fun f c => valueAt f.type c (s.offset + i)) fields children) := by
  rw [valueAt, if_neg (by simp [hn]), valuesAt_eq_map, zipWith_map_left]

/-- **A well-formed array holds values of its type.** -/
theorem valueAt_hasType (ht : t.carried = true) (h : a.Valid t)
    (hi : i < a.length) : Slot (HasType t) (valueAt t a i) := by
  induction ht using DataType.carried_rec generalizing a i with
  | dictionary _ t _ _ ih =>
    cases a with
    | dictionary s _ _ =>
      cases hn : s.isNull i with
      | true => exact Or.inl (by rw [valueAt, if_pos hn])
      | false =>
        obtain ⟨hv, hlt⟩ := dictionary_entry h hi hn
        rw [valueAt, if_neg (by simp [hn])]
        exact (ih hv hlt).imp id fun hty => by rwa [HasType]
    | _ => cases h
  | var t =>
    simp only [valueAt]
    split
    · exact Or.inl rfl
    · exact Or.inr rfl
  | bool | fixed _ =>
    cases a <;> simp only [Valid] at h
    simp only [valueAt]
    split
    · exact Or.inl rfl
    · exact Or.inr (by simp [HasType])
  | struct fields _ ih =>
    cases a <;> try simp only [Valid] at h
    rename_i s children
    cases hn : s.isNull i with
    | true => exact Or.inl (by rw [valueAt, if_pos hn])
    | false =>
      rw [valueAt_struct hn]
      refine Or.inr ?_
      rw [HasType, hasTypes_eq_map, forall₂_map_left_iff]
      refine forall₂_zipWith (valid_struct.mp h) fun f hf c hc => ?_
      have hl := hc.2
      exact ih f hf hc.1 (by simp only [length, slots] at hi hl ⊢; omega)
  | list _ item _ ih =>
    cases a <;> simp only [Valid] at h
    simp only [valueAt]
    split
    · exact Or.inl rfl
    · refine Or.inr fun v hv => ?_
      obtain ⟨j, hj, rfl⟩ := mem_map.mp hv
      exact ih h.2 (valueRange_lt h.1 hi hj)
  | fixedSizeList item n _ ih =>
    cases a <;> simp only [Valid] at h
    simp only [valueAt]
    split
    · exact Or.inl rfl
    · refine Or.inr ⟨by simp, fun v hv => ?_⟩
      obtain ⟨j, hj, rfl⟩ := mem_map.mp hv
      exact ih h.2 (fixedRange_lt h.1 hi hj)
  | map _ item _ _ ihk ihv =>
    cases a <;> simp only [Valid] at h
    obtain ⟨hk, hv, hkeys, hits⟩ := h
    simp only [valueAt]
    split
    · exact Or.inl rfl
    · refine Or.inr ⟨by simp, fun v hmem => ?_, fun v hmem => ?_⟩
      · obtain ⟨j, hj, rfl⟩ := mem_map.mp hmem
        exact ihk hkeys (valueRange_lt hk hi hj)
      · obtain ⟨j, hj, rfl⟩ := mem_map.mp hmem
        exact ihv hits (valueRange_lt hv hi hj)
  | union _ fields _ _ ih =>
    obtain ⟨u, f, hu, hf, hv, hlt⟩ := unionSlot_valid h hi
    have hmem := mem_of_getElem? hf
    rw [valueAt_union hu hf]
    rcases ih f hmem hv hlt with hnull | hty
    · exact Or.inl (by rw [hnull]; rfl)
    · refine Or.inr ?_
      rw [Value.underCode_of_not_null hty.isNull_eq, HasType]
      refine ⟨u.child, unionSlot_childId hu, _, ?_, hty⟩
      rw [hasTypes_eq_map, getElem?_map, hf, Option.map_some]

/-- Without dictionaries there is no entry to be null. -/
theorem resolves_of_supported (ht : t.supported = true) (h : a.Valid t) (hi : i < a.length) :
    a.Resolves t i := by
  induction ht using DataType.supported_rec generalizing a i with
  | bool | fixed _ | var _ => trivial
  | struct fields _ ih =>
    cases a with
    | struct s _ =>
      intro _
      rw [fieldsResolve_eq_map, forall₂_map_left_iff]
      refine forall₂_imp_mem (valid_struct.mp h) fun f hf c hc => ih f hf hc.1 ?_
      have hl := hc.2
      simp only [length, slots] at hi hl ⊢
      omega
    | _ => cases h
  | list _ item _ ih =>
    cases a with
    | list s offsets values => exact fun _ j hj => ih h.2 (valueRange_lt h.1 hi hj)
    | _ => cases h
  | fixedSizeList item n _ ih =>
    cases a with
    | fixedSizeList s values => exact fun _ j hj => ih h.2 (fixedRange_lt h.1 hi hj)
    | _ => cases h
  | map _ item _ _ ihk ihv =>
    cases a with
    | map s offsets _ _ =>
      obtain ⟨hk, hv, hkeys, hits⟩ := h
      exact fun _ j hj => ⟨ihk hkeys (valueRange_lt hk hi hj),
        ihv hits (valueRange_lt hv hi hj)⟩
    | _ => cases h
  | union _ fields _ _ ih =>
    obtain ⟨u, f, hu, hf, hv, hlt⟩ := unionSlot_valid h hi
    have hmem := mem_of_getElem? hf
    exact (resolves_union hu hf).mpr (ih f hmem hv hlt)

end ArrayData

/-! ## Scalars -/

namespace Scalar

theorem readAll_eq (read : Nat → Value) (n : Nat) :
    readAll read n = (range' 0 n).map read := by
  rw [readAll, range_eq_range']

theorem valueOf_struct (fields : List Field) (cs : List Scalar) :
    valueOf (.struct fields) (.struct cs) =
      .struct (zipWith (fun f c => valueOf f.type c) fields cs) := by
  rw [valueOf, valuesOf_eq_map, zipWith_map_left]

theorem valid_struct {cs : List Scalar} : (Scalar.struct cs).Valid (.struct fields) ↔
      Forall₂ (fun f c => c.Valid f.type) fields cs := by
  rw [Valid, valids_eq_map, forall₂_map_left_iff]

/-- The children of a well-formed map scalar's entries. -/
theorem valid_map {key item : Field} {sorted : Bool} {entries : ArrayData}
    (h : (Scalar.map entries).Valid (.map key item sorted)) :
    ∃ s keys items, entries = .struct s [keys, items] ∧ keys.Valid key.type ∧
      items.Valid item.type ∧ s.offset + s.length ≤ keys.length ∧
      s.offset + s.length ≤ items.length := by
  rw [Valid] at h
  cases entries with
  | struct s children =>
    rw [ArrayData.valid_struct] at h
    match children, h with
    | [keys, items], .cons hk (.cons hv .nil) =>
      exact ⟨s, keys, items, rfl, hk.1, hv.1, hk.2, hv.2⟩
  | _ => cases h

/-- A union scalar reads as its active child under the code. -/
theorem valueOf_child {s c : Scalar} {code : UInt8} {k : Nat}
    (hk : childId codes code = some k) (hf : fields[k]? = some f)
    (hshp : (mode = .sparse ∧ ∃ cs, s = .sparseUnion code cs ∧ cs[k]? = some c) ∨
      (mode = .dense ∧ s = .denseUnion code c)) :
    valueOf (.union mode fields codes) s = Value.underCode code (valueOf f.type c) := by
  rcases hshp with ⟨-, cs, rfl, hc⟩ | ⟨-, rfl⟩
  · rw [valueOf, hk]
    simp only [valuesOf_eq_map, getElem?_map, hf, hc, Option.map_some]
  · rw [valueOf, hk]
    simp only [valuesOf_eq_map, getElem?_map, hf, Option.map_some]

/-- The active child of a well-formed, valid union scalar: its field, and the
reading through it. -/
theorem valid_union {s : Scalar} (h : s.Valid (.union mode fields codes)) (hn : s.isNull = false) :
    ∃ code k f c, childId codes code = some k ∧ fields[k]? = some f ∧ c.Valid f.type ∧
      c.isNull = false ∧
      valueOf (.union mode fields codes) s = Value.underCode code (valueOf f.type c) ∧
      ((mode = .sparse ∧ ∃ cs, s = .sparseUnion code cs ∧ cs[k]? = some c) ∨
        (mode = .dense ∧ s = .denseUnion code c)) := by
  cases mode with
  | sparse =>
    cases s with
    | null => cases hn
    | sparseUnion code cs =>
      obtain ⟨hcs, k, c, hk, hc, hcn⟩ := h
      rw [valids_eq_map, forall₂_map_left_iff] at hcs
      obtain ⟨f, hf, hv⟩ := forall₂_getElem?_right hcs hc
      exact ⟨code, k, f, c, hk, hf, hv, hcn, valueOf_child hk hf (.inl ⟨rfl, cs, rfl, hc⟩),
        .inl ⟨rfl, cs, rfl, hc⟩⟩
    | _ => cases h
  | dense =>
    cases s with
    | null => cases hn
    | denseUnion code c =>
      obtain ⟨hcn, k, _, hk, hok, hv⟩ := h
      rw [valids_eq_map, getElem?_map, Option.map_eq_some_iff] at hok
      obtain ⟨f, hf, rfl⟩ := hok
      exact ⟨code, k, f, c, hk, hf, hv, hcn, valueOf_child hk hf (.inr ⟨rfl, rfl⟩), .inr ⟨rfl, rfl⟩⟩
    | _ => cases h

/-- A null scalar reads as null, whatever its type. -/
theorem valueOf_null (t : DataType) : valueOf t .null = .null := by
  induction t with
  | dictionary _ _ _ ih => simpa [valueOf] using ih
  | _ => simp [valueOf]

/-- The leaf in a slot, as a scalar of its type. A half float is one that no dictionary holds. -/
theorem leafAt_eq (ht : t.dictionaryValue = true ∨ t = .fixed .halfFloat) {values : ArrayData}
    {k : Nat} (hv : values.Valid t) :
    ∃ leaf, leafAt t values k = some leaf ∧ leaf.Valid t ∧ leaf.isNull = values.isNull t k ∧
      valueOf t leaf = values.valueAt t k := by
  cases t with
  | bool | fixed _ =>
    cases values <;> simp only [ArrayData.Valid] at hv
    refine ⟨_, rfl, ?_⟩
    simp only [ArrayData.isNull, ArrayData.slots, ArrayData.valueAt]
    split <;> simp_all [Valid, isNull, valueOf]
  | var t =>
    refine ⟨_, rfl, ?_⟩
    simp only [ArrayData.isNull, ArrayData.valueAt]
    split <;> simp_all [Valid, isNull, valueOf]
  | _ => exact absurd ht (by simp [DataType.dictionaryValue])

/-- A scalar of a dictionary type is a dictionary scalar or a plain value. -/
theorem valid_dictionary {index : FixedType} {ordered : Bool} {s : Scalar}
    (h : s.Valid (.dictionary index t ordered)) :
    (∃ k values, s = .dictionary t k values ∧ values.Valid t) ∨
      (s.Valid t ∧ valueOf (.dictionary index t ordered) s = valueOf t s ∧
        s.Resolves (.dictionary index t ordered) ∧ ∀ t' k values, s ≠ .dictionary t' k values) := by
  cases s with
  | dictionary t' k values =>
    obtain ⟨rfl, hv⟩ := h
    exact Or.inl ⟨k, values, rfl, hv⟩
  | null => exact Or.inr ⟨by cases t <;> trivial, by simp [valueOf], trivial, by simp⟩
  | _ => exact Or.inr ⟨h, by rw [valueOf]; simp, trivial, by simp⟩

/-- **A well-formed scalar reads as a value of its type**, or as a null. -/
theorem valueOf_slot (ht : t.carried = true) {s : Scalar} (h : s.Valid t) :
    Slot (HasType t) (valueOf t s) := by
  induction ht using DataType.carried_rec generalizing s with
  | dictionary _ t _ ht ih =>
    rcases valid_dictionary h with ⟨k, values, rfl, hv⟩ | ⟨hs, hval, -⟩
    · cases k with
      | none => exact Or.inl rfl
      | some k =>
        obtain ⟨_, -, hleaf, -, hread⟩ := leafAt_eq (.inl ht) hv (k := k)
        show Slot (HasType t) (values.valueAt t k)
        rw [← hread]
        exact ih hleaf
    · rw [hval]
      exact (ih hs).imp id fun hty => by rwa [HasType]
  | bool | fixed _ | var _ =>
    cases s <;> simp_all [Slot, Valid, valueOf, HasType]
  | struct fields _ ih =>
    cases s with
    | null => exact Or.inl (valueOf_null _)
    | struct _ =>
      refine Or.inr ?_
      rw [valueOf_struct, HasType, hasTypes_eq_map, forall₂_map_left_iff]
      exact forall₂_zipWith (valid_struct.mp h) fun f hf c hv => ih f hf hv
    | _ => cases h
  | list _ item ht ih =>
    cases s with
    | null => exact Or.inl (valueOf_null _)
    | list a =>
      refine Or.inr fun v hv => ?_
      obtain ⟨j, hj, rfl⟩ := mem_map.mp hv
      exact valueAt_hasType (t := item.type) ht h (List.mem_range.mp hj)
    | _ => cases h
  | fixedSizeList item n ht ih =>
    cases s with
    | null => exact Or.inl (valueOf_null _)
    | list a =>
      refine Or.inr ⟨by simp [readAll, h.2], fun v hv => ?_⟩
      obtain ⟨j, hj, rfl⟩ := mem_map.mp hv
      exact valueAt_hasType (t := item.type) ht h.1 (List.mem_range.mp hj)
    | _ => cases h
  | map _ item _ ht _ _ =>
    cases s with
    | null => exact Or.inl (valueOf_null _)
    | map _ =>
      obtain ⟨s, _, _, rfl, hkv, hiv, hkl, hil⟩ := valid_map h
      refine Or.inr ⟨by simp [readAll], fun v hv => ?_, fun v hv => ?_⟩
      · obtain ⟨j, hj, rfl⟩ := mem_map.mp hv
        exact valueAt_hasType (carried_map.mp ht).1 (valid_slice hkv hkl) (by simpa using hj)
      · obtain ⟨j, hj, rfl⟩ := mem_map.mp hv
        exact valueAt_hasType (carried_map.mp ht).2 (valid_slice hiv hil) (by simpa using hj)
    | _ => cases h
  | union _ fields _ _ ih =>
    cases hn : s.isNull with
    | true =>
      rw [isNull_iff.mp hn]
      exact Or.inl (valueOf_null _)
    | false =>
      obtain ⟨_, k, f, c, hk, hf, hv, _, hval, -⟩ := valid_union h hn
      have hmem := mem_of_getElem? hf
      rw [hval]
      rcases ih f hmem hv with hnull | hty
      · exact Or.inl (by rw [hnull]; rfl)
      · refine Or.inr ?_
        rw [Value.underCode_of_not_null hty.isNull_eq, HasType]
        refine ⟨k, hk, _, ?_, hty⟩
        rw [hasTypes_eq_map, getElem?_map, hf, Option.map_some]

/-- The active child of a union scalar resolves with it. -/
theorem resolves_child {s c : Scalar}
    {code : UInt8} {k : Nat} (hk : childId codes code = some k)
    (hf : fields[k]? = some f)
    (hshp : (mode = .sparse ∧ ∃ cs, s = .sparseUnion code cs ∧ cs[k]? = some c) ∨
      (mode = .dense ∧ s = .denseUnion code c)) :
    s.Resolves (.union mode fields codes) ↔ c.Resolves f.type := by
  have hok : (fieldsResolve fields)[k]? = some (Resolves f.type) := by
    rw [fieldsResolve_eq_map, getElem?_map, hf, Option.map_some]
  rcases hshp with ⟨rfl, cs, rfl, hc⟩ | ⟨rfl, rfl⟩
  · simp [Resolves, hk, hok, hc]
  · simp [Resolves, hk, hok]

/-- **A scalar that resolves reads as null exactly when it is null.** -/
theorem valueOf_isNull_of_resolves (ht : t.carried = true) {s : Scalar} (h : s.Valid t)
    (hr : s.Resolves t) : (valueOf t s).isNull = s.isNull := by
  induction ht using DataType.carried_rec generalizing s with
  | dictionary _ t _ ht ih =>
    rcases valid_dictionary h with ⟨k, values, rfl, hv⟩ | ⟨hs, hval, -⟩
    · obtain ⟨k, rfl, _, hn⟩ := hr
      obtain ⟨leaf, -, hleaf, hnull, hread⟩ := leafAt_eq (.inl ht) hv (k := k)
      have hlea : leaf.Resolves t := by
        cases t <;> trivial
      show (values.valueAt t k).isNull = false
      rw [← hread, ih hleaf hlea, hnull, hn]
    · have hsres : s.Resolves t := by
        cases t <;> trivial
      rw [hval, ih hs hsres]
  | union _ _ _ _ ih =>
    cases hn : s.isNull with
    | true => rw [isNull_iff.mp hn, valueOf_null]; rfl
    | false =>
      obtain ⟨_, k, f, c, hk, hf, hv, hcn, hval, hshp⟩ := valid_union h hn
      have hmem := mem_of_getElem? hf
      rw [hval, Value.underCode_isNull,
        ih f hmem hv ((resolves_child hk hf hshp).mp hr), hcn]
  | map _ _ _ _ _ _ =>
    cases s with
    | map _ =>
      obtain ⟨s, _, _, rfl, -⟩ := valid_map h
      rfl
    | null => exact congrArg Value.isNull (valueOf_null _)
    | _ => cases h
  | bool | fixed _ | var _ | struct _ _ _ | list _ _ _ _ | fixedSizeList _ _ _ _ =>
    cases s <;> simp_all [Valid, valueOf, isNull, Value.isNull]

/-- Without dictionaries there is no entry to be null. -/
theorem resolves_of_supported (ht : t.supported = true) {s : Scalar} (h : s.Valid t) :
    s.Resolves t := by
  induction ht using DataType.supported_rec generalizing s with
  | bool | fixed _ | var _ => trivial
  | struct fields _ ih =>
    cases s with
    | null => trivial
    | struct _ =>
      rw [Resolves, fieldsResolve_eq_map, forall₂_map_left_iff]
      exact forall₂_imp_mem (valid_struct.mp h) fun f hf c hv => ih f hf hv
    | _ => cases h
  | list _ item ht ih =>
    cases s with
    | null => trivial
    | list a =>
      exact fun i hi => ArrayData.resolves_of_supported (t := item.type) ht h (by simpa using hi)
    | _ => cases h
  | fixedSizeList item n ht ih =>
    cases s with
    | null => trivial
    | list a =>
      exact fun i hi => ArrayData.resolves_of_supported (t := item.type) ht h.1 (by simpa using hi)
    | _ => cases h
  | map _ item _ ht _ _ =>
    cases s with
    | null => trivial
    | map _ =>
      obtain ⟨s, _, _, rfl, hkv, hiv, hkl, hil⟩ := valid_map h
      intro i hi
      exact ⟨ArrayData.resolves_of_supported (supported_map.mp ht).1 (ArrayData.valid_slice hkv hkl)
          (by simpa using hi),
        ArrayData.resolves_of_supported (supported_map.mp ht).2 (ArrayData.valid_slice hiv hil)
          (by simpa using hi)⟩
    | _ => cases h
  | union _ fields _ _ ih =>
    cases hn : s.isNull with
    | true =>
      rw [isNull_iff.mp hn]
      trivial
    | false =>
      obtain ⟨_, k, f, c, hk, hf, hv, -, -, hshp⟩ := valid_union h hn
      have hmem := mem_of_getElem? hf
      exact (resolves_child hk hf hshp).mpr (ih f hmem hv)

end Scalar

end Fletcher.Arrow
