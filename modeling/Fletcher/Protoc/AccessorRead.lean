import Fletcher.Protoc.AccessorMake

/-!
# What the getters read

A chain of getters and spans is followed next to the value Arrow assigns to the
row. `Sees` is what links the two at every point of the chain: it names the
columns a view was taken from and says that the value beside it is the reading of
those columns. One call preserves it, `follow_sees`, so a chain does.
-/

namespace Fletcher.Protoc

open Lib Arrow Fletcher.Core ListArray

variable {structs : StructArray} {fields : AccessorClass}

variable {col : Column} {i r : Nat} {kind : FieldKind} {nullable : Bool} {handle : Cached}

/-- What the caller of a view learns of the value it stands for: an empty optional is a
null, a plain result is the value itself and not null, an element is null or the value as
`is_null` tells, and a span has as many elements as the value. -/
def View.Shows : View → Value → Prop
  | .nullopt, v => v = .null
  | .value x, v => x = v ∧ v.isNull = false
  | .element isNull x, v => isNull = v.isNull ∧ (isNull = false → x = v)
  | .row acc _, v => ∃ vs, v = .struct vs ∧ vs.length = acc.cached.length
  | .scalarSpan _ _ len, v => ∃ vs, v = .list vs ∧ vs.length = len
  | .structSpan _ _ _ len, v => ∃ vs, v = .list vs ∧ vs.length = len
  | .scalarMapSpan _ _ _ len, v => ∃ ks vs, v = .map ks vs ∧ ks.length = len ∧ vs.length = len
  | .structMapSpan _ _ _ len, v => ∃ ks vs, v = .map ks vs ∧ ks.length = len ∧ vs.length = len

/-- A run of a column that lies inside it. -/
structure Run (col : Column) (base len : Nat) : Prop where
  wellFormed : col.WellFormed
  le : base + len ≤ col.length

/-- The values of a run. -/
def Column.run (col : Column) (base len : Nat) : List Value :=
  (List.range' base len).map col.valueAt

theorem length_run {base len : Nat} : (Column.run col base len).length = len := by
  simp [Column.run]

theorem getElem?_run (col : Column) (base len i : Nat) :
    (Column.run col base len)[i]? = if i < len then some (col.valueAt (base + i)) else none := by
  by_cases hi : i < len
  · simp [Column.run, hi]
  · simp [Column.run, hi]

/-- The accessor was made over these columns, and the row is one of theirs. -/
structure RowOver (acc : Accessor) (cols : List Column) (r : Nat) : Prop where
  cached : ∃ fields, CachesAll fields cols acc.cached
  inside : ∀ c ∈ cols, c.WellFormed ∧ r < c.length

/-- The view and the value are readings of the same columns at the same place. -/
def Sees : View → Value → Prop
  | .nullopt, v => v = .null
  | .value x, v => (x = v ∧ v.isNull = false) ∧ ∀ a, v.follow a = none
  | .element isNull x, v => (isNull = v.isNull ∧ (isNull = false → x = v)) ∧ ∀ a, v.follow a = none
  | .row acc r, v => ∃ cols : List Column, RowOver acc cols r ∧
    v = .struct (cols.map fun c => c.valueAt r)
  | .scalarSpan values base len, v => Run values base len ∧ values.type.isLeaf = true ∧
    v = .list (Column.run values base len)
  | .structSpan levels leaf base len, v => ∃ (values : Column) (structs : StructArray)
    (fields : AccessorClass), Run values base len ∧ Levels values levels structs.column ∧
    Made fields structs leaf ∧ v = .list (Column.run values base len)
  | .scalarMapSpan keys values base len, v => (Run keys base len ∧ keys.type.isLeaf = true ∧
    ∀ i < keys.length, keys.isNull i = false) ∧ Run values base len ∧ values.type.isLeaf = true ∧
    v = .map (Column.run keys base len) (Column.run values base len)
  | .structMapSpan keys inner base len, v => (Run keys base len ∧ keys.type.isLeaf = true ∧
    ∀ i < keys.length, keys.isNull i = false) ∧ ∃ (structs : StructArray)
    (fields : AccessorClass), Run structs.column base len ∧ Made fields structs inner ∧
    v = .map (Column.run keys base len) (Column.run structs.column base len)

/-! ## Elements -/

/-- The values of a leaf column have no parts. -/
theorem follow_leaf (hw : col.WellFormed) (ht : col.type.isLeaf = true) (i : Nat)
    (a : Access) : (col.valueAt i).follow a = none := by
  obtain ⟨t, array⟩ := col
  have hv := hw.valid
  cases t with
  | bool | fixed t =>
    cases array <;> simp only [ArrayData.Valid] at hv
    simp only [Column.valueAt, ArrayData.valueAt]
    split <;> rfl
  | var t =>
    simp only [Column.valueAt, ArrayData.valueAt]
    split <;> rfl
  | _ => cases ht

/-- A scalar list element or map value. -/
theorem element_sees (hw : col.WellFormed) (ht : col.type.isLeaf = true) (i : Nat) :
    Sees (.element (col.isNull i) (col.value i)) (col.valueAt i) :=
  ⟨⟨(Column.valueAt_isNull_leaf hw ht).symm, fun hn => Column.value_eq hw ht hn⟩,
    follow_leaf hw ht i⟩

/-- A leaf slot known to be there. -/
theorem value_sees (hw : col.WellFormed) (ht : col.type.isLeaf = true)
    (hn : col.isNull i = false) : Sees (.value (col.value i)) (col.valueAt i) :=
  ⟨⟨Column.value_eq hw ht hn, (Column.valueAt_isNull_leaf hw ht).trans hn⟩, follow_leaf hw ht i⟩

/-- A row of a struct array whose validity has been asked: the children share its rows. -/
theorem row_sees {acc : Accessor} (hw : structs.column.WellFormed) (hmade : Made fields structs acc)
    (hi : i < structs.length) (hn : structs.isNull i = false) :
    Sees (.row acc i) (structs.column.valueAt i) := by
  obtain ⟨-, hcached⟩ := hmade
  refine ⟨structs.columns, ⟨⟨fields, hcached⟩, ?_⟩, ?_⟩
  · intro c hc
    obtain ⟨k, hk⟩ := List.mem_iff_getElem?.mp hc
    obtain ⟨f, -, -, hwc, _⟩ := forall₂_getElem?_right (StructArray.columns_wellFormed hw) hk
    exact ⟨hwc, by omega⟩
  · rw [StructArray.valueAt_column, hn, if_neg Bool.false_ne_true]

theorem structElement_sees {acc : Accessor}
    (hw : structs.column.WellFormed) (hmade : Made fields structs acc)
    (hi : i < structs.length) : Sees (structElement acc i) (structs.column.valueAt i) := by
  have hval : acc.isNull i = structs.isNull i := by
    obtain ⟨-, -⟩ := hmade
    rfl
  rw [structElement, hval]
  cases hn : structs.isNull i with
  | true =>
    rw [if_pos rfl, StructArray.valueAt_column, hn]
    rfl
  | false =>
    rw [if_neg Bool.false_ne_true]
    exact row_sees hw hmade hi hn

/-- An element of a nested span: the offsets of one level address the next. -/
theorem spanElement_sees {leaf : Accessor}
    (hmade : Made fields structs leaf) {values : Column} {levels : List ListArray}
    (hlevels : Levels values levels structs.column) (hw : values.WellFormed)
    (hi : i < values.length) : Sees (spanElement leaf levels i) (values.valueAt i) := by
  cases levels with
  | nil =>
    obtain rfl := hlevels
    exact structElement_sees hw hmade hi
  | cons list levels =>
    obtain ⟨rfl, hrest⟩ := hlevels
    rw [spanElement, valueAt_column]
    cases hn : list.isNull i with
    | true => exact rfl
    | false =>
      exact ⟨list.values, structs, fields,
        ⟨values_wellFormed hw, range_le hw hi⟩, hrest, hmade, rfl⟩

/-! ## Getters -/

/-- The handle a getter asks has the validity of the column. -/
theorem Caches.isNull_eq
    (h : Caches kind nullable col handle) (r : Nat) : handle.isNull r = col.isNull r := by
  cases h with
  | scalar => rfl
  | struct => exact (StructArray.isNull_column _ r).symm
  | repeatedScalar | repeatedStruct | nestedList => exact (isNull_column _ r).symm
  | map | mapStruct => exact (MapArray.isNull_column _ r).symm

/-- The keys of a map, over the run of one of its rows. -/
theorem keys_run {m : MapArray} {key : LogicalKind} (hw : m.column.WellFormed)
    (hkey : m.keys.type = emitScalarType key) (hr : r < m.column.length) :
    Run m.keys (m.valueOffset r) (m.valueLength r) ∧ m.keys.type.isLeaf = true ∧
      ∀ i < m.keys.length, m.keys.isNull i = false := by
  obtain ⟨hkeys, -, hnulls⟩ := MapArray.children_wellFormed hw
  exact ⟨⟨hkeys, (MapArray.range_le hw hr).1⟩, hkey ▸ isLeaf_emitScalarType, hnulls⟩

/-- The body of a getter on a row that is not null. -/
theorem Caches.read_sees (h : Caches kind nullable col handle) (hw : col.WellFormed)
    (hr : r < col.length) (hn : col.isNull r = false) : Sees (handle.read r) (col.valueAt r) := by
  cases h with
  | scalar htype => exact value_sees hw (htype ▸ isLeaf_emitScalarType) hn
  | struct _ hmade =>
    rw [StructArray.isNull_column] at hn
    exact row_sees hw hmade hr hn
  | @repeatedScalar kind _ list _ htype =>
    rw [isNull_column] at hn
    rw [valueAt_column, hn]
    exact ⟨⟨values_wellFormed hw, range_le hw hr⟩,
      htype ▸ isLeaf_emitScalarType, rfl⟩
  | @repeatedStruct _ fields _ _ list structs _ hvalues hmade =>
    rw [isNull_column] at hn
    rw [valueAt_column, hn]
    exact ⟨list.values, structs, fields,
      ⟨values_wellFormed hw, range_le hw hr⟩, hvalues, hmade, rfl⟩
  | @nestedList _ _ fields _ _ _ outer structs _ _ hlevels hmade =>
    rw [isNull_column] at hn
    rw [valueAt_column, hn]
    exact ⟨outer.values, structs, fields,
      ⟨values_wellFormed hw, range_le hw hr⟩, hlevels, hmade, rfl⟩
  | @map _ value _ m _ hkey hvalue =>
    rw [MapArray.isNull_column] at hn
    rw [MapArray.valueAt_column, hn]
    obtain ⟨-, hits, -⟩ := MapArray.children_wellFormed hw
    exact ⟨keys_run hw hkey hr, ⟨hits, (MapArray.range_le hw hr).2⟩,
      hvalue ▸ isLeaf_emitScalarType, rfl⟩
  | @mapStruct _ _ fields _ _ m structs _ hkey hvalues hmade =>
    rw [MapArray.isNull_column] at hn
    rw [MapArray.valueAt_column, hn]
    obtain ⟨-, hits, -⟩ := MapArray.children_wellFormed hw
    have hrun : Run structs.column (m.valueOffset r) (m.valueLength r) :=
      hvalues ▸ ⟨hits, (MapArray.range_le hw hr).2⟩
    exact ⟨keys_run hw hkey hr, structs, fields, hrun, hmade, by rw [← hvalues]; rfl⟩

/-- The columns a class keeps have a reading that is null where the validity says so. -/
theorem Caches.valueAt_isNull (h : Caches kind nullable col handle) (hw : col.WellFormed)
    (hn : col.isNull r = true) : col.valueAt r = .null := by
  cases h with
  | scalar htype =>
    exact Value.isNull_iff.mp
      ((Column.valueAt_isNull_leaf hw (htype ▸ isLeaf_emitScalarType)).trans hn)
  | struct =>
    rw [StructArray.isNull_column] at hn
    rw [StructArray.valueAt_column, if_pos hn]
  | repeatedScalar | repeatedStruct | nestedList =>
    rw [isNull_column] at hn
    rw [valueAt_column, if_pos hn]
  | map | mapStruct =>
    rw [MapArray.isNull_column] at hn
    rw [MapArray.valueAt_column, if_pos hn]

theorem Caches.noNulls (h : Caches kind nullable col handle) : NoNulls nullable col := by
  cases h with
  | scalar _ hnulls => exact hnulls
  | struct hnulls | repeatedScalar hnulls | repeatedStruct hnulls | map hnulls
  | mapStruct hnulls | nestedList hnulls => exact hnulls

/-- **A getter.** The plain one needs no null test because the gate has let no null through. -/
theorem getField_sees (h : Caches kind nullable col handle) (name : String) (hw : col.WellFormed)
    (hr : r < col.length) : Sees (getField ⟨name, handle, nullable⟩ r) (col.valueAt r) := by
  rw [getField, h.isNull_eq]
  cases hn : col.isNull r with
  | false =>
    rw [Bool.and_false, if_neg Bool.false_ne_true]
    exact h.read_sees hw hr hn
  | true =>
    cases nullable with
    | true => exact h.valueAt_isNull hw hn
    | false => exact absurd (h.noNulls rfl r hr) (by simp [hn])

/-! ## One call, and a chain of calls -/

/-- Field by field, a getter beside the column it reads. -/
theorem CachesAll.getField_sees : ∀ {fields : AccessorClass} {cols : List Column}
    {cached : List (FieldOf Cached)}, CachesAll fields cols cached → ∀ {r : Nat},
    (∀ c ∈ cols, c.WellFormed ∧ r < c.length) →
    List.Forall₂ (fun f c => Sees (getField f r) (c.valueAt r)) cached cols
  | _, _, _, .nil, _, _ => .nil
  | _, _, _, .cons hhead htail, _, hcols =>
    .cons (Protoc.getField_sees hhead _ (hcols _ (by simp)).1 (hcols _ (by simp)).2)
      (htail.getField_sees fun c hc => hcols c (by simp [hc]))

/-- An element of a run, under its range check. -/
theorem rel_element {view : Nat → View} {base len : Nat}
    (h : ∀ j < len, Sees (view j) (col.valueAt (base + j))) :
    Option.Rel Sees (if i < len then some (view i) else none) (Column.run col base len)[i]? := by
  rw [getElem?_run]
  by_cases hi : i < len
  · rw [if_pos hi, if_pos hi]
    exact .some (h i hi)
  · rw [if_neg hi, if_neg hi]
    exact .none

theorem key_sees {keys : Column} {base len : Nat} (h : Run keys base len ∧
    keys.type.isLeaf = true ∧ ∀ i < keys.length, keys.isNull i = false) :
    ∀ j < len, Sees (.value (keys.value (base + j))) (keys.valueAt (base + j)) := by
  intro j _
  obtain ⟨hrun, hleaf, hnulls⟩ := h
  have hle := hrun.le
  exact value_sees hrun.wellFormed hleaf (hnulls _ (by omega))

/-- **One call.** The view has a result exactly where the value has a part, and they see
the same columns. -/
theorem follow_sees {view : View} {v : Value} (h : Sees view v) (a : Access) :
    Option.Rel Sees (view.follow a) (v.follow a) := by
  cases view with
  | nullopt =>
    obtain rfl : v = .null := h
    cases a <;> exact .none
  | value x =>
    rw [h.2 a]
    exact .none
  | element _ x =>
    rw [h.2 a]
    exact .none
  | row acc r =>
    obtain ⟨cols, hover, rfl⟩ := h
    obtain ⟨fields, hcached⟩ := hover.cached
    cases a with
    | field k =>
      show Option.Rel Sees (acc.cached[k]?.map fun f => getField f r)
        (cols.map fun c => c.valueAt r)[k]?
      rw [List.getElem?_map]
      rcases forall₂_getElem? (hcached.getField_sees hover.inside) k with
        ⟨f, c, hf, hc, hsees⟩ | ⟨hf, hc⟩
      · rw [hf, hc]
        exact .some hsees
      · rw [hf, hc]
        exact .none
    | _ => exact .none
  | scalarSpan values base len =>
    obtain ⟨hrun, hleaf, rfl⟩ := h
    cases a with
    | element i => exact rel_element fun j _ => element_sees hrun.wellFormed hleaf _
    | _ => exact .none
  | structSpan _ _ base len =>
    obtain ⟨values, structs, fields, hrun, hlevels, hmade, rfl⟩ := h
    have hle := hrun.le
    cases a with
    | element i =>
      exact rel_element fun j _ => spanElement_sees hmade hlevels hrun.wellFormed (by omega)
    | _ => exact .none
  | scalarMapSpan keys values base len =>
    obtain ⟨hkeys, hrun, hleaf, rfl⟩ := h
    cases a with
    | key i => exact rel_element (key_sees hkeys)
    | value i => exact rel_element fun j _ => element_sees hrun.wellFormed hleaf _
    | _ => exact .none
  | structMapSpan keys _ base len =>
    obtain ⟨hkeys, structs, fields, hrun, hmade, rfl⟩ := h
    have hle : base + len ≤ structs.length := hrun.le
    cases a with
    | key i => exact rel_element (key_sees hkeys)
    | value i =>
      exact rel_element fun j _ => structElement_sees hrun.wellFormed hmade (by omega)
    | _ => exact .none

/-- **A chain of calls**, by one call after the other. -/
theorem walk_sees : ∀ {path : List Access} {view : View} {v : Value}, Sees view v →
    Option.Rel Sees (view.walk path) (v.walk path)
  | [], _, _, h => .some h
  | a :: path, view, v, h => by
    have hstep := follow_sees h a
    rw [View.walk, Value.walk]
    cases hview : view.follow a with
    | none =>
      cases hvalue : v.follow a with
      | none => exact .none
      | some v' => rw [hview, hvalue] at hstep; cases hstep
    | some _ =>
      cases hvalue : v.follow a with
      | none => rw [hview, hvalue] at hstep; cases hstep
      | some v' =>
        rw [hview, hvalue] at hstep
        cases hstep with
        | some hsees => exact walk_sees hsees

theorem Sees.shows {view : View} {v : Value} (h : Sees view v) : view.Shows v := by
  cases view with
  | nullopt => exact h
  | value | element => exact h.1
  | row _ r =>
    obtain ⟨_, hover, rfl⟩ := h
    obtain ⟨_, hcached⟩ := hover.cached
    refine ⟨_, rfl, ?_⟩
    rw [List.length_map]
    exact (hcached.getField_sees hover.inside).length_eq.symm
  | scalarSpan values base len =>
    obtain ⟨-, -, rfl⟩ := h
    exact ⟨_, rfl, length_run⟩
  | structSpan _ _ base len =>
    obtain ⟨values, -, -, -, -, -, rfl⟩ := h
    exact ⟨_, rfl, length_run⟩
  | scalarMapSpan keys values base len =>
    obtain ⟨-, -, -, rfl⟩ := h
    exact ⟨_, _, rfl, length_run, length_run⟩
  | structMapSpan keys _ base len =>
    obtain ⟨-, _, -, -, -, rfl⟩ := h
    exact ⟨_, _, rfl, length_run, length_run⟩

theorem rel_shows {view : Option View} {v : Option Value} (h : Option.Rel Sees view v) :
    Option.Rel View.Shows view v := by
  cases h with
  | none => exact .none
  | some h => exact .some h.shows

/-- **Accessor reads.** On every source `Make` accepts, sliced or not, the accessor has the
source's rows and their validity, and from every row a chain of getters and spans has a
result exactly where Arrow has a value, and shows that value. -/
theorem accessor_reads {text : DataType → String} {cls : String} {fields : AccessorClass}
    {source : Source} {acc : Accessor} (hw : source.WellFormed)
    (hmake : make text cls fields source = .ok acc) :
    acc.numRows = source.numRows ∧ ∀ r < acc.numRows, acc.isNull r = source.isNull r ∧
      ∀ path, Option.Rel View.Shows ((View.row acc r).walk path)
        ((Value.struct (source.rowAt r)).walk path) := by
  obtain ⟨-, _, hcached, rfl⟩ := make_ok_iff.mp hmake
  refine ⟨rfl, fun r hr => ⟨?_, fun path => ?_⟩⟩
  · cases source <;> rfl
  · have hinside : ∀ c ∈ source.columns, c.WellFormed ∧ r < c.length := by
      intro c hc
      obtain ⟨hwc, hlen⟩ := hw.column c hc
      exact ⟨hwc, hlen ▸ hr⟩
    refine rel_shows (walk_sees ?_)
    exact ⟨source.columns, ⟨⟨fields, hcached⟩, hinside⟩, rfl⟩

/-- Two words in a list beside a number, the second row of three. -/
def tagged : StructArray where
  fields := [⟨"id", .fixed .int32, false⟩, ⟨"tags", .list .list ⟨"item", .var .string, true⟩, true⟩]
  slots := ⟨1, 1, none⟩
  children := [.fixed ⟨3, 0, none⟩ [1, 0, 0, 0, 2, 0, 0, 0, 3, 0, 0, 0],
    .list ⟨3, 0, some [false, true, true]⟩ [0, 0, 2, 2]
      (.binary ⟨2, 0, some [true, false]⟩ [0, 1, 1] [104])]

def taggedClass : AccessorClass :=
  [⟨"id", .scalar .int32, false⟩, ⟨"tags", .repeatedScalar .utf8, true⟩]

def taggedAccessor : Accessor where
  numRows := 1
  structValidity := some tagged
  cached := [
    ⟨"id", .scalar ⟨.fixed .int32, .fixed ⟨1, 1, none⟩ [1, 0, 0, 0, 2, 0, 0, 0, 3, 0, 0, 0]⟩,
      false⟩,
    ⟨"tags", .repeatedScalar ⟨⟨"item", .var .string, true⟩, ⟨1, 1, some [false, true, true]⟩,
      [0, 0, 2, 2], .binary ⟨2, 0, some [true, false]⟩ [0, 1, 1] [104]⟩, true⟩]

theorem tagged_wellFormed : (Source.structs tagged).WellFormed := by
  refine ⟨.cons ⟨?_, ?_⟩ (.cons ⟨⟨?_, ?_⟩, ?_⟩ .nil), ?_⟩
  · show (_ : Nat) ≤ _
    decide
  · decide
  · show ArrayData.OffsetsIn _ _ _
    decide
  · show ArrayData.OffsetsIn _ _ _
    decide
  · decide
  · exact .cons trivial (.cons trivial .nil)

theorem tagged_make :
    make (fun _ => "") "Tagged" taggedClass (.structs tagged) = .ok taggedAccessor := rfl

/-- The second tag of the sliced row is null, and its element says so. -/
theorem tagged_reads : (View.row taggedAccessor 0).walk [.field 1, .element 1] =
      some (.element true (.binary .string [])) ∧
    Option.Rel View.Shows ((View.row taggedAccessor 0).walk [.field 1, .element 1])
      ((Value.struct ((Source.structs tagged).rowAt 0)).walk [.field 1, .element 1]) :=
  ⟨rfl, ((accessor_reads tagged_wellFormed tagged_make).2 0 (by decide)).2 _⟩

end Fletcher.Protoc
