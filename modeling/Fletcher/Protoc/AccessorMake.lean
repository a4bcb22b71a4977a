import Fletcher.Protoc.Accessor

/-!
# What `Make` accepts and keeps

`Caches` says, shape by shape, which columns the checks of a field let through and
which handles they leave behind. `fieldFromColumns_ok_iff` and `make_ok_iff` are the
only places where the generated checks are unfolded; what the getters read and
which sources are accepted both follow from them.
-/

namespace Fletcher.Protoc

open Lib Arrow Fletcher.Core List

variable {fields : AccessorClass} {acc : Accessor}

variable {place cls : String} {col : Column}

/-- The columns of a well-formed source. -/
theorem Source.WellFormed.column {source : Source} (h : source.WellFormed) :
    ∀ c ∈ source.columns, c.WellFormed ∧ c.length = source.numRows := by
  cases source with
  | batch b => exact h
  | structs a =>
    intro c hc
    obtain ⟨k, hk⟩ := mem_iff_getElem?.mp hc
    obtain ⟨f, -, -, hwc⟩ := forall₂_getElem?_right (StructArray.columns_wellFormed h) hk
    exact hwc

/-! ## The single checks -/

/-- What the null gate of a field asks of the array the field is kept in: every slot of
it, whether a row refers to it or not. -/
def NoNulls (nullable : Bool) (col : Column) : Prop :=
  nullable = false → ∀ i < col.length, col.isNull i = false

theorem equalsLeaf_scalar {kind : LogicalKind} {t : DataType} :
    DataType.equalsLeaf (emitScalarType kind) t = true ↔ t = emitScalarType kind := by
  cases kind <;> cases t <;> simp [DataType.equalsLeaf, emitScalarType, eq_comm]

theorem isLeaf_emitScalarType {kind : LogicalKind} : (emitScalarType kind).isLeaf = true := by
  cases kind <;> rfl

section

variable {text : DataType → String}

theorem checkType_ok_iff {kind : LogicalKind} {u : Unit} :
    checkType text place kind col = .ok u ↔ col.type = emitScalarType kind := by
  rw [checkType, ← equalsLeaf_scalar]
  split
  · next h => exact iff_of_true rfl h
  · next h => exact iff_of_false (by simp) h

theorem checkNulls_ok_iff {nullable : Bool} {u : Unit} :
    checkNulls nullable place col = .ok u ↔ NoNulls nullable col := by
  have hgate : (nullable || col.nullCount == 0) = true ↔ NoNulls nullable col := by
    cases nullable <;> simp [NoNulls, Column.nullCount_eq_zero]
  rw [checkNulls, ← hgate]
  split
  · next h => exact iff_of_true rfl h
  · next h => exact iff_of_false (by simp) h

theorem castStruct_ok_iff {structs : StructArray} :
    castStruct text place col = .ok structs ↔ col = structs.column := by
  rw [castStruct, ← Column.asStruct_eq_some]
  cases col.asStruct <;> simp [pure, Except.pure]

theorem castList_ok_iff {list : ListArray} :
    castList text place col = .ok list ↔ col = list.column := by
  rw [castList, ← Column.asList_eq_some]
  cases col.asList <;> simp [pure, Except.pure]

theorem castMap_ok_iff {map : MapArray} : castMap text place col = .ok map ↔ col = map.column := by
  rw [castMap, ← Column.asMap_eq_some]
  cases col.asMap <;> simp [pure, Except.pure]

end

/-- `levels` are the list arrays met from `col` inwards, and `leaf` the values of the last. -/
def Levels : Column → List ListArray → Column → Prop
  | col, [], leaf => col = leaf
  | col, list :: levels, leaf => col = list.column ∧ Levels list.values levels leaf

theorem castLevels_ok_iff {text : DataType → String} : ∀ {rest level : Nat}
    {col leaf : Column} {levels : List ListArray},
    castLevels text place level rest col = .ok (levels, leaf) ↔
      levels.length = rest ∧ Levels col levels leaf
  | 0, level, col, leaf, levels => by
    cases levels <;> simp [castLevels, Levels, pure, Except.pure]
  | rest + 1, level, col, leaf, levels => by
    simp only [castLevels, bind_eq_ok_iff, castList_ok_iff, Prod.exists, pure, Except.pure,
      Except.ok.injEq, Prod.mk.injEq]
    constructor
    · rintro ⟨list, rfl, lists, _, htail, rfl, rfl⟩
      obtain ⟨hlen, hlevels⟩ := castLevels_ok_iff.mp htail
      exact ⟨by simp [hlen], rfl, hlevels⟩
    · rintro ⟨hlen, hlevels⟩
      cases levels with
      | nil => cases hlen
      | cons list lists =>
        refine ⟨list, hlevels.1, lists, leaf, castLevels_ok_iff.mpr ?_, rfl, rfl⟩
        exact ⟨Nat.succ.inj hlen, hlevels.2⟩

theorem firstUnsupported_eq_none : ∀ {fields : AccessorClass} {i : Nat},
    firstUnsupported fields i = none ↔ ∀ f ∈ fields, f.type.isSupported = true
  | [], i => by simp [firstUnsupported]
  | f :: fs, i => by
    rw [firstUnsupported, forall_mem_cons, ← firstUnsupported_eq_none (i := i + 1)]
    split
    · next h => simp [h]
    · next h => simp [h]

/-! ## Accepted columns -/

mutual

/-- `Caches kind nullable col handle`: the checks of a field let `col` through and keep
`handle` of it. -/
inductive Caches : FieldKind → Bool → Column → Cached → Prop
  | scalar {kind nullable col} (htype : col.type = emitScalarType kind)
    (hnulls : NoNulls nullable col) : Caches (.scalar kind) nullable col (.scalar col)
  | struct {cls fields nullable inner} {structs : StructArray}
    (hnulls : NoNulls nullable structs.column) (hmade : Made fields structs inner) :
    Caches (.struct cls fields) nullable structs.column (.struct structs inner)
  | repeatedScalar {kind nullable} {list : ListArray} (hnulls : NoNulls nullable list.column)
    (htype : list.values.type = emitScalarType kind) :
    Caches (.repeatedScalar kind) nullable list.column (.repeatedScalar list)
  | repeatedStruct {cls fields nullable inner} {list : ListArray} {structs : StructArray}
    (hnulls : NoNulls nullable list.column) (hvalues : list.values = structs.column)
    (hmade : Made fields structs inner) :
    Caches (.repeatedStruct cls fields) nullable list.column (.lists list [] inner)
  | map {key value nullable} {m : MapArray} (hnulls : NoNulls nullable m.column)
    (hkey : m.keys.type = emitScalarType key) (hvalue : m.items.type = emitScalarType value) :
    Caches (.map key value) nullable m.column (.map m)
  | mapStruct {key cls fields nullable inner} {m : MapArray} {structs : StructArray}
    (hnulls : NoNulls nullable m.column) (hkey : m.keys.type = emitScalarType key)
    (hvalues : m.items = structs.column) (hmade : Made fields structs inner) :
    Caches (.mapStruct key cls fields) nullable m.column (.mapStruct m inner)
  | nestedList {depth cls fields nullable levels inner} {outer : ListArray}
    {structs : StructArray} (hnulls : NoNulls nullable outer.column)
    (hdepth : levels.length = depth - 1) (hlevels : Levels outer.values levels structs.column)
    (hmade : Made fields structs inner) :
    Caches (.nestedList depth cls fields) nullable outer.column (.lists outer levels inner)

/-- `inner` is the accessor made over a struct array. -/
inductive Made : AccessorClass → StructArray → Accessor → Prop
  | mk {fields structs cached} (hsupported : ∀ f ∈ fields, f.type.isSupported = true)
    (hcached : CachesAll fields structs.columns cached) :
    Made fields structs ⟨structs.length, some structs, cached⟩

/-- The columns of a class, field by field. -/
inductive CachesAll : AccessorClass → List Column → List (FieldOf Cached) → Prop
  | nil : CachesAll [] [] []
  | cons {name kind nullable fields col cols handle rest} (hhead : Caches kind nullable col handle)
    (htail : CachesAll fields cols rest) :
    CachesAll (⟨name, kind, nullable⟩ :: fields) (col :: cols) (⟨name, handle, nullable⟩ :: rest)

end

theorem CachesAll.length_eq : ∀ {fields : AccessorClass} {cols : List Column}
    {cached : List (FieldOf Cached)}, CachesAll fields cols cached → cols.length = fields.length
  | _, _, _, .nil => rfl
  | _, _, _, .cons _ htail => by simp [htail.length_eq]

section

variable {text : DataType → String}

/-- What is shown of a field: its checks accept what `Caches` says. -/
def ReadsOff (text : DataType → String) (kind : FieldKind) : Prop :=
  ∀ {nullable place col handle}, fieldFromColumns text kind nullable place col = .ok handle ↔
    Caches kind nullable col handle

/-- The checks of the columns succeed where each of them does. -/
theorem columnsFrom_ok_iff : ∀ {fields : AccessorClass}
    (_ : ∀ f ∈ fields, ReadsOff text f.type)
    {i : Nat} {cols : List Column} {cached : List (FieldOf Cached)}, cols.length = fields.length →
    (columnsFrom text cls fields i cols = .ok cached ↔ CachesAll fields cols cached)
  | [], _, i, cols, cached, hlen => by
    obtain rfl := length_eq_zero_iff.mp hlen
    simp only [columnsFrom, pure, Except.pure, Except.ok.injEq]
    constructor
    · rintro rfl
      exact .nil
    · intro h
      cases h
      rfl
  | ⟨name, kind, nullable⟩ :: fields, ih, i, [], cached, hlen => by cases hlen
  | ⟨name, kind, nullable⟩ :: fields, ih, i, col :: cols, cached, hlen => by
    have hhead : ReadsOff text kind := ih _ mem_cons_self
    have htail : ∀ rest, columnsFrom text cls fields (i + 1) cols = .ok rest ↔
        CachesAll fields cols rest := fun rest =>
      columnsFrom_ok_iff (fun f hf => ih f (mem_cons_of_mem _ hf)) (Nat.succ.inj hlen)
    simp only [columnsFrom, bind_eq_ok_iff, htail, pure, Except.pure, Except.ok.injEq]
    constructor
    · rintro ⟨handle, hc, rest, hrest, rfl⟩
      exact .cons (hhead.mp hc) hrest
    · intro h
      cases h with
      | cons hc hrest => exact ⟨_, hhead.mpr hc, _, hrest, rfl⟩

theorem fromColumns_ok_iff {check : List Column → Result (List (FieldOf Cached))}
    {numRows : Nat} {cols : List Column} :
    fromColumns check cls fields numRows cols = .ok acc ↔
      (∀ f ∈ fields, f.type.isSupported = true) ∧ cols.length = fields.length ∧
        ∃ cached, check cols = .ok cached ∧ acc = ⟨numRows, none, cached⟩ := by
  rw [fromColumns, ← firstUnsupported_eq_none (i := 0)]
  cases firstUnsupported fields 0 with
  | some _ => simp
  | none =>
    by_cases hlen : cols.length = fields.length
    · simp only [hlen, ↓reduceIte, bind_eq_ok_iff, pure, Except.pure, Except.ok.injEq, true_and]
      exact exists_congr fun cached => and_congr_right fun _ => eq_comm
    · simp [hlen]

theorem makeStructs_ok_iff {structs : StructArray} (ih : ∀ f ∈ fields, ReadsOff text f.type) :
    makeStructs (fun cols => columnsFrom text cls fields 0 cols) cls fields structs = .ok acc ↔
      Made fields structs acc := by
  simp only [makeStructs, bind_eq_ok_iff, fromColumns_ok_iff, pure, Except.pure, Except.ok.injEq]
  constructor
  · rintro ⟨_, ⟨hsupported, hlen, _, hcheck, rfl⟩, rfl⟩
    exact .mk hsupported ((columnsFrom_ok_iff ih hlen).mp hcheck)
  · rintro ⟨hsupported, hcached⟩
    have hlen := hcached.length_eq
    exact ⟨_, ⟨hsupported, hlen, _, (columnsFrom_ok_iff ih hlen).mpr hcached, rfl⟩, rfl⟩

/-- **The checks of one field.** -/
theorem fieldFromColumns_ok_iff (kind : FieldKind) : ReadsOff text kind := by
  -- Each case reads the checks off the definition, in order, and puts them together again.
  intro nullable place col handle
  induction kind generalizing nullable place col handle with
  | scalar kind =>
    simp only [fieldFromColumns, bind_eq_ok_iff, checkType_ok_iff, checkNulls_ok_iff, pure,
      Except.pure, Except.ok.injEq]
    constructor
    · rintro ⟨-, htype, -, hnulls, rfl⟩
      exact .scalar htype hnulls
    · rintro ⟨htype, hnulls⟩
      exact ⟨(), htype, (), hnulls, rfl⟩
  | struct cls fields ih =>
    simp only [fieldFromColumns, bind_eq_ok_iff, castStruct_ok_iff, checkNulls_ok_iff,
      makeStructs_ok_iff ih, pure, Except.pure, Except.ok.injEq]
    constructor
    · rintro ⟨structs, rfl, -, hnulls, inner, hmade, rfl⟩
      exact .struct hnulls hmade
    · intro h
      cases h with
      | struct hnulls hmade => exact ⟨_, rfl, (), hnulls, _, hmade, rfl⟩
  | repeatedScalar kind =>
    simp only [fieldFromColumns, bind_eq_ok_iff, castList_ok_iff, checkNulls_ok_iff,
      checkType_ok_iff, pure, Except.pure, Except.ok.injEq]
    constructor
    · rintro ⟨list, rfl, -, hnulls, -, htype, rfl⟩
      exact .repeatedScalar hnulls htype
    · intro h
      cases h with
      | repeatedScalar hnulls htype => exact ⟨_, rfl, (), hnulls, (), htype, rfl⟩
  | repeatedStruct cls fields ih =>
    simp only [fieldFromColumns, bind_eq_ok_iff, castList_ok_iff, castStruct_ok_iff,
      checkNulls_ok_iff, makeStructs_ok_iff ih, pure, Except.pure, Except.ok.injEq]
    constructor
    · rintro ⟨list, rfl, -, hnulls, structs, hvalues, inner, hmade, rfl⟩
      exact .repeatedStruct hnulls hvalues hmade
    · intro h
      cases h with
      | repeatedStruct hnulls hvalues hmade =>
        exact ⟨_, rfl, (), hnulls, _, hvalues, _, hmade, rfl⟩
  | map key _ =>
    simp only [fieldFromColumns, bind_eq_ok_iff, castMap_ok_iff, checkNulls_ok_iff,
      checkType_ok_iff, pure, Except.pure, Except.ok.injEq]
    constructor
    · rintro ⟨m, rfl, -, hnulls, -, hkey, -, hvalue, rfl⟩
      exact .map hnulls hkey hvalue
    · intro h
      cases h with
      | map hnulls hkey hvalue => exact ⟨_, rfl, (), hnulls, (), hkey, (), hvalue, rfl⟩
  | mapStruct key cls fields ih =>
    simp only [fieldFromColumns, bind_eq_ok_iff, castMap_ok_iff, castStruct_ok_iff,
      checkNulls_ok_iff, checkType_ok_iff, makeStructs_ok_iff ih, pure, Except.pure,
      Except.ok.injEq]
    constructor
    · rintro ⟨m, rfl, -, hnulls, -, hkey, structs, hvalues, inner, hmade, rfl⟩
      exact .mapStruct hnulls hkey hvalues hmade
    · intro h
      cases h with
      | mapStruct hnulls hkey hvalues hmade =>
        exact ⟨_, rfl, (), hnulls, (), hkey, _, hvalues, _, hmade, rfl⟩
  | nestedList depth cls fields ih =>
    simp only [fieldFromColumns, bind_eq_ok_iff, castList_ok_iff, castStruct_ok_iff,
      checkNulls_ok_iff, makeStructs_ok_iff ih, Prod.exists, castLevels_ok_iff, pure,
      Except.pure, Except.ok.injEq]
    constructor
    · rintro ⟨_, rfl, -, hnulls, _, _, ⟨hdepth, hlevels⟩, structs, rfl, inner, hmade,
        rfl⟩
      exact .nestedList hnulls hdepth hlevels hmade
    · intro h
      cases h with
      | nestedList hnulls hdepth hlevels hmade =>
        exact ⟨_, rfl, (), hnulls, _, _, ⟨hdepth, hlevels⟩, _, rfl, _, hmade, rfl⟩
  | nestedScalars depth kind =>
    rw [fieldFromColumns]
    exact iff_of_false (by simp) (by intro h; cases h)

/-- **What `Make` accepts and keeps.** -/
theorem make_ok_iff {source : Source} :
    make text cls fields source = .ok acc ↔ (∀ f ∈ fields, f.type.isSupported = true) ∧
      ∃ cached, CachesAll fields source.columns cached ∧
        acc = ⟨source.numRows, source.validity, cached⟩ := by
  have ih : ∀ f ∈ fields, ReadsOff text f.type := fun f _ => fieldFromColumns_ok_iff f.type
  cases source with
  | structs a =>
    refine (makeStructs_ok_iff ih).trans ?_
    constructor
    · rintro ⟨hsupported, hcached⟩
      exact ⟨hsupported, _, hcached, rfl⟩
    · rintro ⟨hsupported, cached, hcached, rfl⟩
      exact .mk hsupported hcached
  | batch b =>
    refine fromColumns_ok_iff.trans ?_
    constructor
    · rintro ⟨hsupported, hlen, cached, hcheck, rfl⟩
      exact ⟨hsupported, cached, (columnsFrom_ok_iff ih hlen).mp hcheck, rfl⟩
    · rintro ⟨hsupported, cached, hcached, rfl⟩
      have hlen := hcached.length_eq
      exact ⟨hsupported, hlen, cached, (columnsFrom_ok_iff ih hlen).mpr hcached, rfl⟩

end

end Fletcher.Protoc
