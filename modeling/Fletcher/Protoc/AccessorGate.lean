import Fletcher.Protoc.AccessorMake

/-!
# Which sources `Make` accepts

A source matches a message when its columns have the types of the message's
schema, position by position, and it is clean when no field that is not nullable
is null in a row that can be reached. `Make` checks the types, but its null gate
counts the nulls of whole arrays: the children of a null struct, the elements of a
null list and the elements no row refers to count as well. `NullFree` is what the
gate asks. It is more than clean: `make_accepts_iff` has both.
-/

namespace Fletcher.Protoc

open Lib Arrow Fletcher.Core List ListArray FieldKind

variable {t : DataType} {fields : AccessorClass} {nullable : Bool} {r : Nat}

variable {n : Nat}

/-! ## The schema of a class -/

/-- A list type as the schema visitor emits it. -/
def listOf (t : DataType) : DataType := .list .list ⟨"item", t, true⟩

def listsOf : Nat → DataType → DataType
  | 0, t => t
  | depth + 1, t => listOf (listsOf depth t)

/-- A map type as the schema visitor emits it. -/
def mapOf (key : LogicalKind) (value : DataType) : DataType :=
  .map ⟨"key", emitScalarType key, false⟩ ⟨"value", value, true⟩ false

mutual

/-- The Arrow type of a field. -/
def FieldKind.dataType : FieldKind → DataType
  | .scalar kind => emitScalarType kind
  | .struct _ fields => .struct (classSchema fields)
  | .repeatedScalar kind => listOf (emitScalarType kind)
  | .repeatedStruct _ fields => listOf (.struct (classSchema fields))
  | .map key value => mapOf key (emitScalarType value)
  | .mapStruct key _ fields => mapOf key (.struct (classSchema fields))
  | .nestedList depth _ fields => listsOf depth (.struct (classSchema fields))
  | .nestedScalars depth kind => listsOf depth (emitScalarType kind)

def classSchema : AccessorClass → Schema
  | [] => []
  | ⟨name, kind, nullable⟩ :: fields => ⟨name, kind.dataType, nullable⟩ :: classSchema fields

end

theorem classSchema_eq_map : ∀ fields, classSchema fields =
    fields.map (fun f => ⟨f.name, f.type.dataType, f.nullable⟩)
  | [] => rfl
  | ⟨_, _, _⟩ :: fs => by rw [classSchema, classSchema_eq_map fs]; rfl

/-- A chain of lists is its leaf under as many list types. -/
theorem emitNodeType_listLeaf (nested : Fin n → Gen Schema) : ∀ node : IrNode n,
    emitNodeType nested node = (emitNodeType nested node.listLeaf).map (listsOf node.listDepth)
  | .list _ e => by
    rw [emitNodeType, emitNodeType_listLeaf nested e, IrNode.listLeaf, IrNode.listDepth]
    cases emitNodeType nested e.listLeaf <;> rfl
  | .scalar _ _ => rfl
  | .struct _ _ _ | .map _ _ _ | .unsupported _ _ => by
    simp only [IrNode.listLeaf, IrNode.listDepth]
    cases emitNodeType nested _ <;> rfl

/-- A field's Arrow type is the type of its kind. -/
theorem emitNodeType_link {nested : Fin n → Gen Schema} {className : Fin n → String}
    {cls : Fin n → Gen AccessorClass} (hnes : ∀ m, nested m = (cls m).map classSchema)
    {node : IrNode n} {mapping : FieldMapping n} (h : projectIrToFieldMapping node = some mapping) :
    emitNodeType nested node = (linkMapping className cls mapping).map dataType := by
  cases node with
  | unsupported facts _ => cases h
  | scalar facts kind =>
    cases h
    rfl
  | struct facts m fields =>
    cases h
    simp only [emitNodeType, linkMapping, hnes]
    cases cls m <;> rfl
  | list facts e =>
    cases e with
    | scalar facts' kind =>
      cases h
      rfl
    | struct facts' m fields =>
      cases h
      simp only [emitNodeType, linkMapping, hnes]
      cases cls m <;> rfl
    | list facts' e' =>
      rw [emitNodeType_listLeaf]
      simp only [projectIrToFieldMapping] at h
      simp only [IrNode.listLeaf] at h ⊢
      cases hl : e'.listLeaf with
      | scalar facts'' kind =>
        rw [hl] at h
        cases h
        rfl
      | struct facts'' m fields =>
        rw [hl] at h
        cases h
        simp only [emitNodeType, linkMapping, hnes]
        cases cls m <;> rfl
      | _ => rw [hl] at h; cases h
    | _ => cases h
  | map facts key value =>
    cases key with
    | scalar facts' kind =>
      cases value with
      | scalar facts'' _ =>
        cases h
        rfl
      | struct facts'' m fields =>
        cases h
        simp only [emitNodeType, linkMapping, hnes]
        cases cls m <;> rfl
      | _ => cases h
    | _ => cases h

/-- The schema of a message is the schema of its accessor class. -/
theorem messageSchema_eq_classSchema (pool : Pool n) (className : Fin n → String) (fuel : Nat)
    (m : Fin n) : messageSchema pool fuel m =
      (accessorClass pool className fuel m).map classSchema := by
  induction fuel generalizing m with
  | zero => rfl
  | succ fuel ih =>
    rw [messageSchema, accessorClass, buildFlattenedFieldList_eq_gatherFields]
    cases hfs : gatherFields pool (fuel + 1) m with
    | error e => rfl
    | ok _ =>
      have hkeep := walkFields_mem hfs
      have hmap : classSchema = List.map fun f => ⟨f.name, f.type.dataType, f.nullable⟩ :=
        funext classSchema_eq_map
      simp only [ok_bind, hmap]
      refine mapM_map_congr fun r hr => ?_
      obtain ⟨mapping, hmapp⟩ := Option.isSome_iff_exists.mp (hkeep r hr).1
      rw [emitNodeType_link ih hmapp]
      simp only [hmapp]
      cases linkMapping className (accessorClass pool className fuel) mapping <;> rfl

/-! ## Types that match -/

mutual

/-- `Matches expected t`: an Arrow type with the structure of one of a message schema.
Names, nullable flags and the sortedness of map keys do not count. -/
def Matches : DataType → DataType → Prop
  | .bool, .bool => True
  | .fixed t, .fixed t' => t' = t
  | .var t, .var t' => t' = t
  | .struct fields, .struct fields' =>
    List.Forall₂ (fun ok (f : Field) => ok f.type) (fieldsMatch fields) fields'
  | .list kind ⟨_, t, _⟩, .list kind' item => kind' = kind ∧ Matches t item.type
  | .map ⟨_, kt, _⟩ ⟨_, vt, _⟩ _, .map key item _ => Matches kt key.type ∧ Matches vt item.type
  | _, _ => False

/-- The same for each field's type. -/
def fieldsMatch : List Field → List (DataType → Prop)
  | [] => []
  | ⟨_, t, _⟩ :: fs => Matches t :: fieldsMatch fs

end

theorem fieldsMatch_eq_map : ∀ fields, fieldsMatch fields = fields.map (fun f => Matches f.type)
  | [] => rfl
  | ⟨_, _, _⟩ :: fs => by rw [fieldsMatch, fieldsMatch_eq_map fs]; rfl

theorem matches_scalar {kind : LogicalKind} :
    Matches (emitScalarType kind) t ↔ t = emitScalarType kind := by
  cases kind <;> cases t <;> simp [Matches, emitScalarType]

theorem matches_struct : Matches (.struct (classSchema fields)) t ↔ ∃ fields', t = .struct fields' ∧
      Forall₂ (fun f (g : Field) => Matches f.type.dataType g.type) fields fields' := by
  have hmap : fieldsMatch (classSchema fields) = fields.map fun f => Matches f.type.dataType := by
    rw [fieldsMatch_eq_map, classSchema_eq_map, List.map_map]
    rfl
  cases t <;> simp [Matches, hmap, forall₂_map_left_iff]

theorem matches_list {u : DataType} :
    Matches (listOf t) u ↔ ∃ item : Field, u = .list .list item ∧ Matches t item.type := by
  cases u with
  | list _ item => simp [listOf, Matches]
  | _ => simp [listOf, Matches]

theorem matches_map {key : LogicalKind} {value u : DataType} :
    Matches (mapOf key value) u ↔ ∃ (k v : Field) (sorted : Bool), u = .map k v sorted ∧
      k.type = emitScalarType key ∧ Matches value v.type := by
  cases u with
  | map k v sorted => simp [mapOf, Matches, matches_scalar]
  | _ => simp [mapOf, Matches]

/-! ## What the null gate asks -/

mutual

/-- No null in any slot of the arrays that hold a field which is not nullable, at any depth:
of a struct's children within the struct's window, of the elements of a list or map in the
whole child array. -/
def NullFree : FieldKind → Bool → Column → Prop
  | .struct _ fields, nullable, col => NoNulls nullable col ∧
    ∀ structs : StructArray, col = structs.column →
      List.Forall₂ (fun ok c => ok c) (fieldsNullFree fields) structs.columns
  | .repeatedStruct _ fields, nullable, col => NoNulls nullable col ∧
    ∀ (list : ListArray) (structs : StructArray), col = list.column →
      list.values = structs.column →
      List.Forall₂ (fun ok c => ok c) (fieldsNullFree fields) structs.columns
  | .mapStruct _ _ fields, nullable, col => NoNulls nullable col ∧
    ∀ (m : MapArray) (structs : StructArray), col = m.column → m.items = structs.column →
      List.Forall₂ (fun ok c => ok c) (fieldsNullFree fields) structs.columns
  | .nestedList depth _ fields, nullable, col => NoNulls nullable col ∧
    ∀ (outer : ListArray) (levels : List ListArray) (structs : StructArray),
      col = outer.column → levels.length = depth - 1 →
      Levels outer.values levels structs.column →
      List.Forall₂ (fun ok c => ok c) (fieldsNullFree fields) structs.columns
  | .scalar _, nullable, col => NoNulls nullable col
  | .repeatedScalar _, nullable, col => NoNulls nullable col
  | .map _ _, nullable, col => NoNulls nullable col
  | .nestedScalars _ _, nullable, col => NoNulls nullable col

def fieldsNullFree : AccessorClass → List (Column → Prop)
  | [] => []
  | ⟨_, kind, nullable⟩ :: fields => NullFree kind nullable :: fieldsNullFree fields

end

theorem fieldsNullFree_eq_map : ∀ fields, fieldsNullFree fields =
    fields.map (fun f => NullFree f.type f.nullable)
  | [] => rfl
  | ⟨_, _, _⟩ :: fs => by rw [fieldsNullFree, fieldsNullFree_eq_map fs]; rfl

mutual

/-- Every field is supported, and so are those of the classes it names. -/
def FieldKind.supportedThroughout : FieldKind → Bool
  | .struct _ fields | .repeatedStruct _ fields | .mapStruct _ _ fields => classSupported fields
  | .nestedList depth _ fields => (depth == 2 || depth == 3) && classSupported fields
  | .nestedScalars _ _ => false
  | _ => true

def classSupported : AccessorClass → Bool
  | [] => true
  | ⟨_, kind, _⟩ :: fields => kind.supportedThroughout && classSupported fields

end

theorem classSupported_iff : ∀ {fields : AccessorClass}, classSupported fields = true ↔
    ∀ f ∈ fields, f.type.supportedThroughout = true
  | [] => by simp [classSupported]
  | ⟨_, _, _⟩ :: fs => by simp [classSupported, @classSupported_iff fs]

theorem isSupported_of_throughout {kind : FieldKind} (h : kind.supportedThroughout = true) :
    kind.isSupported = true := by
  cases kind with
  | nestedList depth _ _ =>
    rw [supportedThroughout, Bool.and_eq_true] at h
    exact h.1
  | nestedScalars depth kind => cases h
  | _ => rfl

/-! ## Acceptance -/

/-- What is shown of a field: its column is accepted exactly when the types match and the
gate finds no null. -/
def AcceptsExactly (kind : FieldKind) : Prop :=
  ∀ (nullable : Bool) (col : Column), col.WellFormed →
    ((∃ handle, Caches kind nullable col handle) ↔
    Matches kind.dataType col.type ∧ NullFree kind nullable col)

theorem cachesAll_iff : ∀ {fields : AccessorClass} {cols : List Column},
    (∃ cached, CachesAll fields cols cached) ↔
      Forall₂ (fun f c => ∃ handle, Caches f.type f.nullable c handle) fields cols
  | [], [] => iff_of_true ⟨[], .nil⟩ .nil
  | [], _ :: _ | _ :: _, [] => iff_of_false (by rintro ⟨_, h⟩; cases h) (by intro h; cases h)
  | ⟨name, kind, nullable⟩ :: fields, col :: cols => by
    rw [forall₂_cons, ← cachesAll_iff]
    constructor
    · rintro ⟨_, h⟩
      cases h with
      | cons hhead htail => exact ⟨⟨_, hhead⟩, _, htail⟩
    · rintro ⟨⟨handle, hhead⟩, _, htail⟩
      exact ⟨_, .cons hhead htail⟩

/-- The columns of a class, by what is shown of its fields. -/
theorem cachesAll_iff_matches (ih : ∀ f ∈ fields, AcceptsExactly f.type)
    {cols : List Column} (hcols : ∀ c ∈ cols, c.WellFormed) :
    (∃ cached, CachesAll fields cols cached) ↔
      Forall₂ (fun f (c : Column) => Matches f.type.dataType c.type) fields cols ∧
        Forall₂ (fun ok c => ok c) (fieldsNullFree fields) cols := by
  rw [cachesAll_iff, fieldsNullFree_eq_map, forall₂_map_left_iff]
  constructor
  · intro h
    have hboth := forall₂_and_right h hcols
    exact ⟨forall₂_imp_mem hboth fun f hf c hc => ((ih f hf _ c hc.2).mp hc.1).1,
      forall₂_imp_mem hboth fun f hf c hc => ((ih f hf _ c hc.2).mp hc.1).2⟩
  · rintro ⟨hmat, hfree⟩
    have hboth := forall₂_and_right hmat hcols
    refine (forall₂_congr_mem hboth fun f hf c hc => ?_).mp hfree
    exact ⟨fun hn => (ih f hf _ c hc.2).mpr ⟨hc.1, hn⟩, fun hc' => ((ih f hf _ c hc.2).mp hc').2⟩

/-- The accessor of a struct array. -/
theorem made_iff (ih : ∀ f ∈ fields, AcceptsExactly f.type)
    (hsup : classSupported fields = true) {structs : StructArray}
    (hw : structs.column.WellFormed) : (∃ inner, Made fields structs inner) ↔
      Matches (.struct (classSchema fields)) structs.column.type ∧
        Forall₂ (fun ok c => ok c) (fieldsNullFree fields) structs.columns := by
  have hcol := StructArray.columns_wellFormed hw
  have hcols : ∀ c ∈ structs.columns, c.WellFormed := by
    intro c hc
    obtain ⟨k, hk⟩ := mem_iff_getElem?.mp hc
    obtain ⟨f, -, -, hwc, -⟩ := forall₂_getElem?_right hcol hk
    exact hwc
  -- The type of a struct array lists the types of its columns.
  have htys : Matches (.struct (classSchema fields)) structs.column.type ↔
      Forall₂ (fun f (c : Column) => Matches f.type.dataType c.type) fields
        structs.columns := by
    rw [matches_struct]
    constructor
    · rintro ⟨fields', ht, hmat⟩
      obtain rfl : structs.fields = fields' := by injection ht
      exact forall₂_join hmat.flip hcol fun g _ f c hm hc => hc.1 ▸ hm
    · intro hmat
      refine ⟨structs.fields, rfl, ?_⟩
      exact forall₂_join hmat.flip hcol.flip fun c _ f g hm hc => hc.1 ▸ hm
  rw [htys, ← cachesAll_iff_matches ih hcols]
  constructor
  · rintro ⟨_, hmade⟩
    cases hmade with
    | mk _ hcached => exact ⟨_, hcached⟩
  · rintro ⟨_, hcached⟩
    exact ⟨_, .mk (fun f hf => isSupported_of_throughout (classSupported_iff.mp hsup f hf)) hcached⟩

/-- The same of a column that has to be a struct array. -/
theorem made_iff_matches
    (ih : ∀ f ∈ fields, f.type.supportedThroughout = true → AcceptsExactly f.type)
    (hsup : classSupported fields = true) {col : Column} (hw : col.WellFormed) :
    (∃ structs inner, col = structs.column ∧ Made fields structs inner) ↔
      Matches (.struct (classSchema fields)) col.type ∧ ∀ structs : StructArray,
        col = structs.column → Forall₂ (fun ok c => ok c) (fieldsNullFree fields)
          structs.columns := by
  have hmade := @made_iff _ (fun f hf => ih f hf (classSupported_iff.mp hsup f hf)) hsup
  constructor
  · rintro ⟨structs, inner, rfl, hinner⟩
    obtain ⟨hmat, hfree⟩ := (hmade hw).mp ⟨inner, hinner⟩
    exact ⟨hmat, fun structs' hs => Column.structColumn_inj hs ▸ hfree⟩
  · rintro ⟨hmat, hfree⟩
    obtain ⟨fields', ht, -⟩ := matches_struct.mp hmat
    obtain ⟨structs, rfl, -⟩ := hw.eq_struct ht
    obtain ⟨inner, hinner⟩ := (hmade hw).mpr ⟨hmat, hfree structs rfl⟩
    exact ⟨structs, inner, rfl, hinner⟩

/-- The inner levels of a nested list, by the types. -/
theorem levels_iff : ∀ {depth : Nat} {col : Column}, col.WellFormed →
    (Matches (listsOf depth t) col.type ↔ ∃ levels leaf, levels.length = depth ∧
      Levels col levels leaf ∧ leaf.WellFormed ∧ Matches t leaf.type)
  | 0, col, hw => by
    constructor
    · exact fun h => ⟨[], col, rfl, rfl, hw, h⟩
    · rintro ⟨levels, leaf, hlen, hlevels, -, hmat⟩
      obtain rfl := length_eq_zero_iff.mp hlen
      obtain rfl := hlevels
      exact hmat
  | depth + 1, col, hw => by
    rw [listsOf, matches_list]
    constructor
    · rintro ⟨item, ht, hmat⟩
      obtain ⟨list, rfl, rfl⟩ := hw.eq_list ht
      obtain ⟨levels, leaf, hlen, hlevels, hleaf⟩ :=
        (levels_iff (values_wellFormed hw)).mp hmat
      exact ⟨list :: levels, leaf, by simp [hlen], ⟨rfl, hlevels⟩, hleaf⟩
    · rintro ⟨levels, leaf, hlen, hlevels, hleaf⟩
      cases levels with
      | nil => cases hlen
      | cons list levels =>
        obtain ⟨rfl, hrest⟩ := hlevels
        refine ⟨list.item, rfl, ?_⟩
        exact (levels_iff (values_wellFormed hw)).mpr
          ⟨levels, leaf, Nat.succ.inj hlen, hrest, hleaf⟩

theorem Levels.wellFormed : ∀ {levels : List ListArray} {col leaf : Column},
    Levels col levels leaf → col.WellFormed → leaf.WellFormed
  | [], _, _, h, hw => h ▸ hw
  | _ :: _, _, _, ⟨rfl, hrest⟩, hw => hrest.wellFormed (values_wellFormed hw)

/-- The levels of a nested list are found in one way only. -/
theorem Levels.unique : ∀ {col : Column} {levels levels' : List ListArray} {leaf leaf' : Column},
    Levels col levels leaf → Levels col levels' leaf' → levels.length = levels'.length →
    leaf = leaf'
  | _, [], [], _, _, h, h', _ => h.symm.trans h'
  | _, list :: levels, list' :: levels', _, _, h, h', hlen => by
    obtain rfl := Column.listColumn_inj (h.1.symm.trans h'.1)
    exact Levels.unique h.2 h'.2 (Nat.succ.inj hlen)

theorem acceptsExactly (kind : FieldKind) (hsup : kind.supportedThroughout = true) :
    AcceptsExactly kind := by
  intro nullable col hw
  induction kind generalizing nullable col with
  | scalar kind =>
    rw [dataType, matches_scalar, NullFree]
    constructor
    · rintro ⟨_, ⟨htype, hnulls⟩⟩
      exact ⟨htype, hnulls⟩
    · exact fun h => ⟨_, .scalar h.1 h.2⟩
  | struct cls fields ih =>
    rw [supportedThroughout] at hsup
    have hiff := made_iff_matches ih hsup hw
    rw [dataType, NullFree]
    constructor
    · rintro ⟨_, h⟩
      cases h with
      | struct hnulls hmade =>
        obtain ⟨hmat, hfree⟩ := hiff.mp ⟨_, _, rfl, hmade⟩
        exact ⟨hmat, hnulls, hfree⟩
    · rintro ⟨hmat, hnulls, hfree⟩
      obtain ⟨structs, inner, rfl, hmade⟩ := hiff.mpr ⟨hmat, hfree⟩
      exact ⟨_, .struct hnulls hmade⟩
  | repeatedScalar kind =>
    rw [dataType, matches_list, NullFree]
    constructor
    · rintro ⟨_, h⟩
      cases h with
      | @repeatedScalar _ _ list hnulls htype =>
        exact ⟨⟨list.item, rfl, matches_scalar.mpr htype⟩, hnulls⟩
    · rintro ⟨⟨item, ht, hmat⟩, hnulls⟩
      obtain ⟨list, rfl, rfl⟩ := hw.eq_list ht
      exact ⟨_, .repeatedScalar hnulls (matches_scalar.mp hmat)⟩
  | repeatedStruct cls fields ih =>
    rw [supportedThroughout] at hsup
    have hiff := @made_iff_matches _ ih hsup
    rw [dataType, matches_list, NullFree]
    constructor
    · rintro ⟨_, h⟩
      cases h with
      | repeatedStruct hnulls hvalues hmade =>
        obtain ⟨hmat, hfree⟩ := (hiff (values_wellFormed hw)).mp ⟨_, _, hvalues, hmade⟩
        refine ⟨⟨_, rfl, hmat⟩, hnulls, fun list structs hl => ?_⟩
        exact Column.listColumn_inj hl ▸ hfree structs
    · rintro ⟨⟨item, ht, hmat⟩, hnulls, hfree⟩
      obtain ⟨list, rfl, rfl⟩ := hw.eq_list ht
      obtain ⟨structs, inner, hvalues, hmade⟩ := (hiff (values_wellFormed hw)).mpr
        ⟨hmat, fun structs => hfree list structs rfl⟩
      exact ⟨_, .repeatedStruct hnulls hvalues hmade⟩
  | map key _ =>
    rw [dataType, matches_map, NullFree]
    constructor
    · rintro ⟨_, h⟩
      cases h with
      | @map _ _ _ m hnulls hkey hvalue =>
        exact ⟨⟨m.key, m.item, m.sorted, rfl, hkey, matches_scalar.mpr hvalue⟩, hnulls⟩
    · rintro ⟨⟨k, v, sorted, ht, hkey, hmat⟩, hnulls⟩
      obtain ⟨m, rfl, rfl, rfl⟩ := hw.eq_map ht
      exact ⟨_, .map hnulls hkey (matches_scalar.mp hmat)⟩
  | mapStruct key cls fields ih =>
    rw [supportedThroughout] at hsup
    have hiff := @made_iff_matches _ ih hsup
    rw [dataType, matches_map, NullFree]
    constructor
    · rintro ⟨_, h⟩
      cases h with
      | mapStruct hnulls hkey hvalues hmade =>
        obtain ⟨hmat, hfree⟩ :=
          (hiff (MapArray.children_wellFormed hw).2.1).mp ⟨_, _, hvalues, hmade⟩
        refine ⟨⟨_, _, _, rfl, hkey, hmat⟩, hnulls, fun m structs hm => ?_⟩
        exact Column.mapColumn_inj hm ▸ hfree structs
    · rintro ⟨⟨k, v, sorted, ht, hkey, hmat⟩, hnulls, hfree⟩
      obtain ⟨m, rfl, rfl, rfl⟩ := hw.eq_map ht
      obtain ⟨structs, inner, hvalues, hmade⟩ :=
        (hiff (MapArray.children_wellFormed hw).2.1).mpr
          ⟨hmat, fun structs => hfree m structs rfl⟩
      exact ⟨_, .mapStruct hnulls hkey hvalues hmade⟩
  | nestedList depth cls fields ih =>
    rw [supportedThroughout, Bool.and_eq_true] at hsup
    obtain ⟨hdepth, hsup⟩ := hsup
    have hiff := @made_iff_matches _ ih hsup
    obtain ⟨rest, rfl⟩ : ∃ rest, depth = rest + 1 := ⟨depth - 1, by
      simp only [Bool.or_eq_true, beq_iff_eq] at hdepth
      omega⟩
    rw [dataType, listsOf, matches_list, NullFree]
    constructor
    · rintro ⟨_, h⟩
      cases h with
      | nestedList hnulls hlen hlevels hmade =>
        have hwo := values_wellFormed hw
        have hwl := hlevels.wellFormed hwo
        obtain ⟨hmat, hfree⟩ := (hiff hwl).mp ⟨_, _, rfl, hmade⟩
        refine ⟨⟨_, rfl, (levels_iff hwo).mpr ⟨_, _, hlen, hlevels, hwl, hmat⟩⟩, hnulls, ?_⟩
        intro _ _ structs ho hlen' hlevels'
        obtain rfl := Column.listColumn_inj ho
        exact hfree structs (hlevels.unique hlevels' (hlen.trans hlen'.symm))
    · rintro ⟨⟨item, ht, hmat⟩, hnulls, hfree⟩
      obtain ⟨outer, rfl, rfl⟩ := hw.eq_list ht
      obtain ⟨levels, _, hlen, hlevels, hwl, hleaf⟩ :=
        (levels_iff (values_wellFormed hw)).mp hmat
      obtain ⟨structs, inner, rfl, hmade⟩ := (hiff hwl).mpr ⟨hleaf, fun structs hs =>
        hfree outer levels structs rfl hlen (hs ▸ hlevels)⟩
      exact ⟨_, .nestedList hnulls hlen hlevels hmade⟩
  | nestedScalars depth kind => cases hsup

/-! ## What is accepted has no reachable null -/

theorem nullable_of_isNull {col : Column} (hnulls : NoNulls nullable col)
    (hr : r < col.length) (hn : col.isNull r = true) : nullable = true := by
  cases nullable with
  | true => rfl
  | false => exact absurd (hnulls rfl r hr) (by simp [hn])

/-- A leaf has nothing inside that could be null. -/
theorem scalar_allows {kind : LogicalKind} {col : Column} (hw : col.WellFormed)
    (htype : col.type = emitScalarType kind) (hnulls : NoNulls nullable col) (hr : r < col.length) :
    SlotAllows nullable (NullsAllowed (emitScalarType kind)) (col.valueAt r) := by
  have hnull := Column.valueAt_isNull_leaf (i := r) hw (htype ▸ isLeaf_emitScalarType)
  rw [SlotAllows, hnull]
  split
  · next hn => exact nullable_of_isNull hnulls hr hn
  · cases kind <;> simp [emitScalarType, NullsAllowed]

theorem struct_allows {structs : StructArray} {inner : Accessor}
    (ih : ∀ f ∈ fields, f.type.isSupported = true → ∀ nullable col handle,
      Caches f.type nullable col handle → col.WellFormed → ∀ r < col.length,
      SlotAllows nullable (NullsAllowed f.type.dataType) (col.valueAt r))
    (hw : structs.column.WellFormed) (hmade : Made fields structs inner)
    (hnulls : NoNulls nullable structs.column) (hr : r < structs.length) :
    SlotAllows nullable (NullsAllowed (.struct (classSchema fields)))
      (structs.column.valueAt r) := by
  obtain ⟨hsupported, hcached⟩ := hmade
  rw [StructArray.valueAt_column]
  cases hn : structs.isNull r with
  | true => exact nullable_of_isNull hnulls hr ((StructArray.isNull_column _ r).trans hn)
  | false =>
    have hcols := (StructArray.columns_wellFormed hw).flip
    show NullsAllowed _ (.struct _)
    rw [NullsAllowed, fieldsAllow_eq_map, classSchema_eq_map, List.map_map,
      forall₂_map_left_iff, forall₂_map_right_iff]
    have hacc := forall₂_and_right (cachesAll_iff.mp ⟨_, hcached⟩) fun c hc => by
      obtain ⟨k, hk⟩ := mem_iff_getElem?.mp hc
      obtain ⟨f, -, -, hwc, hlen⟩ := forall₂_getElem?_left hcols hk
      exact And.intro hwc (hlen.symm ▸ hr : r < c.length)
    refine forall₂_imp_mem hacc fun f hf c hc => ?_
    obtain ⟨⟨handle, hcache⟩, hwc, hlt⟩ := hc
    exact ih f hf (hsupported f hf) _ c handle hcache hwc r hlt

theorem list_allows {list : ListArray} (hw : list.column.WellFormed)
    (hnulls : NoNulls nullable list.column)
    (hits : ∀ i < list.values.length, SlotAllows true (NullsAllowed t) (list.values.valueAt i))
    (hr : r < list.column.length) :
    SlotAllows nullable (NullsAllowed (listOf t)) (list.column.valueAt r) := by
  rw [valueAt_column]
  cases hn : list.isNull r with
  | true => exact nullable_of_isNull hnulls hr ((isNull_column _ r).trans hn)
  | false =>
    have hrng := range_le hw hr
    show NullsAllowed (listOf t) (.list _)
    rw [listOf, NullsAllowed]
    intro v hv
    obtain ⟨i, hi, rfl⟩ := mem_map.mp hv
    rw [mem_range'_1] at hi
    exact hits i (by omega)

theorem map_allows {m : MapArray} (hw : m.column.WellFormed) {key : LogicalKind}
    (hnulls : NoNulls nullable m.column) (hkey : m.keys.type = emitScalarType key)
    (hits : ∀ i < m.items.length, SlotAllows true (NullsAllowed t) (m.items.valueAt i))
    (hr : r < m.column.length) :
    SlotAllows nullable (NullsAllowed (mapOf key t)) (m.column.valueAt r) := by
  rw [MapArray.valueAt_column]
  cases hn : m.isNull r with
  | true => exact nullable_of_isNull hnulls hr ((MapArray.isNull_column _ r).trans hn)
  | false =>
    obtain ⟨hkeys, -, hpre⟩ := MapArray.children_wellFormed hw
    have hrng := MapArray.range_le hw hr
    show NullsAllowed (mapOf key t) (.map _ _)
    rw [mapOf, NullsAllowed]
    constructor
    · intro k hk
      obtain ⟨i, hi, rfl⟩ := mem_map.mp hk
      rw [mem_range'_1] at hi
      exact scalar_allows hkeys hkey (fun _ => hpre) (by omega)
    · intro v hv
      obtain ⟨i, hi, rfl⟩ := mem_map.mp hv
      rw [mem_range'_1] at hi
      exact hits i (by omega)

/-- The inner levels have no gate and need none: they are nullable in the schema. -/
theorem levels_allow : ∀ {levels : List ListArray} {col leaf : Column},
    Levels col levels leaf → col.WellFormed →
    (∀ i < leaf.length, SlotAllows true (NullsAllowed t) (leaf.valueAt i)) →
    ∀ i < col.length, SlotAllows true (NullsAllowed (listsOf levels.length t)) (col.valueAt i)
  | [], _, _, rfl, _, hleaf => hleaf
  | list :: levels, _, _, ⟨rfl, hrest⟩, hw, hleaf => fun _ hi =>
    list_allows hw (by intro h; cases h)
      (levels_allow hrest (values_wellFormed hw) hleaf) hi

/-- **What the checks of a field let through has no null where the schema forbids one.** -/
theorem Caches.allows (kind : FieldKind) (hsupported : kind.isSupported = true) (nullable : Bool)
    (col : Column) (handle : Cached) (h : Caches kind nullable col handle) (hw : col.WellFormed)
    (r : Nat) (hr : r < col.length) :
    SlotAllows nullable (NullsAllowed kind.dataType) (col.valueAt r) := by
  induction kind generalizing nullable col handle r with
  | scalar kind =>
    obtain ⟨htype, hnulls⟩ := h
    exact scalar_allows hw htype hnulls hr
  | struct cls fields ih =>
    cases h with
    | struct hnulls hmade => exact struct_allows ih hw hmade hnulls hr
  | repeatedScalar kind =>
    cases h with
    | repeatedScalar hnulls htype =>
      exact list_allows hw hnulls (fun i hi => scalar_allows (values_wellFormed hw)
        htype (by intro h; cases h) hi) hr
  | repeatedStruct cls fields ih =>
    cases h with
    | repeatedStruct hnulls hvalues hmade =>
      have hwv := values_wellFormed hw
      refine list_allows hw hnulls (fun i hi => ?_) hr
      rw [hvalues] at hwv hi ⊢
      exact struct_allows ih hwv hmade (by intro h; cases h) hi
  | map key _ =>
    cases h with
    | map hnulls hkey hvalue =>
      obtain ⟨-, hits, -⟩ := MapArray.children_wellFormed hw
      exact map_allows hw hnulls hkey
        (fun i hi => scalar_allows hits hvalue (by intro h; cases h) hi) hr
  | mapStruct key cls fields ih =>
    cases h with
    | mapStruct hnulls hkey hvalues hmade =>
      obtain ⟨-, hwv, -⟩ := MapArray.children_wellFormed hw
      refine map_allows hw hnulls hkey (fun i hi => ?_) hr
      rw [hvalues] at hwv hi ⊢
      exact struct_allows ih hwv hmade (by intro h; cases h) hi
  | nestedList depth cls fields ih =>
    cases h with
    | @nestedList _ _ _ _ levels _ outer structs hnulls hlen hlevels hmade =>
      obtain ⟨rest, rfl⟩ : ∃ rest, depth = rest + 1 := ⟨depth - 1, by
        simp only [isSupported, Bool.or_eq_true, beq_iff_eq] at hsupported
        omega⟩
      obtain rfl : levels.length = rest := hlen
      have hwo := values_wellFormed hw
      refine list_allows hw hnulls (levels_allow hlevels hwo fun i hi => ?_) hr
      exact struct_allows ih (hlevels.wellFormed hwo) hmade (by intro h; cases h) hi
  | nestedScalars depth kind => cases hsupported

/-! ## The sources `Make` accepts -/

namespace Source

/-- The counts and the types of the columns match, level by level. -/
def TypesMatch (source : Source) (schema : Schema) : Prop :=
  List.Forall₂ (fun f (c : Column) => Matches f.type c.type) schema source.columns

/-- In no row, and below no parent that is itself null, is a field null that is not nullable. -/
def ReachablyClean (source : Source) (schema : Schema) : Prop :=
  ∀ r < source.numRows, source.isNull r = false → RowAllowed schema (source.rowAt r)

/-- What the null gates ask of the source. -/
def NullFree (source : Source) (fields : AccessorClass) : Prop :=
  List.Forall₂ (fun ok c => ok c) (fieldsNullFree fields) source.columns

end Source

/-- What `Make` accepts, by the types and the gates. -/
theorem makes_iff (text : DataType → String) (cls : String)
    (hsup : classSupported fields = true) {source : Source} (hw : source.WellFormed) :
    (∃ acc, make text cls fields source = .ok acc) ↔
      source.TypesMatch (classSchema fields) ∧ source.NullFree fields := by
  have hthr := classSupported_iff.mp hsup
  have hcols : ∀ c ∈ source.columns, c.WellFormed := fun c hc => (hw.column c hc).1
  have htys : source.TypesMatch (classSchema fields) ↔ Forall₂
      (fun f (c : Column) => Matches f.type.dataType c.type) fields source.columns := by
    rw [Source.TypesMatch, classSchema_eq_map, forall₂_map_left_iff]
  rw [htys, Source.NullFree,
    ← cachesAll_iff_matches (fun f hf => acceptsExactly f.type (hthr f hf)) hcols]
  constructor
  · rintro ⟨acc, hmake⟩
    obtain ⟨-, cached, hcached, -⟩ := make_ok_iff.mp hmake
    exact ⟨cached, hcached⟩
  · rintro ⟨cached, hcached⟩
    refine ⟨_, make_ok_iff.mpr ⟨fun f hf => ?_, cached, hcached, rfl⟩⟩
    exact isSupported_of_throughout (hthr f hf)

/-- What `Make` accepts is clean. -/
theorem make_reachablyClean {text : DataType → String} {cls : String} {source : Source}
    (hw : source.WellFormed) {acc : Accessor} (hmake : make text cls fields source = .ok acc) :
    source.ReachablyClean (classSchema fields) := by
  obtain ⟨hsupported, _, hcached, -⟩ := make_ok_iff.mp hmake
  intro r hr _
  rw [RowAllowed, classSchema_eq_map, forall₂_map_left_iff, Source.rowAt,
    forall₂_map_right_iff]
  have hacc := forall₂_and_right (cachesAll_iff.mp ⟨_, hcached⟩) hw.column
  refine forall₂_imp_mem hacc fun f hf c hc => ?_
  obtain ⟨⟨handle, hcache⟩, hwc, hlen⟩ := hc
  exact hcache.allows f.type (hsupported f hf) _ c handle hwc r (hlen ▸ hr)

/-- **Accessor acceptance.** `Make` accepts exactly the sources that match the message and pass
the null gates, and what it accepts is clean. -/
theorem make_accepts_iff {n : Nat} {pool : Pool n} {className : Fin n → String} {fuel : Nat}
    {m : Fin n} {fields : AccessorClass} {schema : Schema} {text : DataType → String}
    (hcls : accessorClass pool className fuel m = .ok fields)
    (hschema : messageSchema pool fuel m = .ok schema) (hsup : classSupported fields = true)
    {source : Source} (hw : source.WellFormed) :
    ((∃ acc, make text (className m) fields source = .ok acc) ↔
        source.TypesMatch schema ∧ source.NullFree fields) ∧
      (source.TypesMatch schema ∧ source.NullFree fields → source.ReachablyClean schema) := by
  rw [messageSchema_eq_classSchema pool className, hcls] at hschema
  cases hschema
  have hiff := makes_iff text (className m) hsup hw
  refine ⟨hiff, ?_⟩
  intro h
  obtain ⟨_, hmake⟩ := hiff.mpr h
  exact make_reachablyClean hw hmake

/-! ## A null below a null -/

/-- `message Point { int32 x = 1; }` and `message Place { optional Point at = 1; }`. -/
def placePool : Pool 2
  | 0 => ⟨"Point", [⟨"x", "Point.x", 1, .int32, .optional, false, false, none, false⟩], false,
    false⟩
  | 1 => ⟨"Place", [⟨"at", "Place.at", 1, .message 0, .optional, true, false, none, false⟩],
    false, false⟩

def placeNames : Fin 2 → String
  | 0 => "Point"
  | 1 => "Place"

def placeClass : AccessorClass :=
  [⟨"at", .struct "Point" [⟨"x", .scalar .int32, false⟩], true⟩]

def placeSchema : Schema := [⟨"at", .struct [⟨"x", .fixed .int32, false⟩], true⟩]

variable (x : Option (List Bool))

/-- The struct array of one place without a point. `x` are the validity bits of the child. -/
def nowhere : StructArray :=
  ⟨[⟨"x", .fixed .int32, false⟩], ⟨1, 0, some [false]⟩, [.fixed ⟨1, 0, x⟩ [0, 0, 0, 0]]⟩

def nowhereBatch : Source :=
  .batch ⟨placeSchema, 1, [(nowhere x).column]⟩

theorem nowhereBatch_wellFormed : (nowhereBatch x).WellFormed := by
  intro c hc
  obtain rfl := mem_singleton.mp hc
  refine ⟨⟨.cons ⟨?_, ?_⟩ .nil, .cons trivial .nil⟩, rfl⟩
  · show 1 * FixedType.int32.width ≤ 4
    decide
  · exact Nat.le_refl 1

theorem nowhereBatch_typesMatch : (nowhereBatch x).TypesMatch placeSchema :=
  .cons (.cons rfl .nil) .nil

/-- The only row has no point, and nothing below that is reached. -/
theorem nowhereBatch_clean :
    (nowhereBatch x).ReachablyClean placeSchema := by
  intro r hr _
  obtain rfl : r = 0 := Nat.lt_one_iff.mp hr
  exact .cons rfl .nil

/-- With a child that is valid in its slot the place is accepted. -/
theorem nowhere_accepted : ∃ acc, make (fun _ => "") (placeNames 1) placeClass
    (nowhereBatch (some [true])) = .ok acc := by
  have hfree : (nowhereBatch (some [true])).NullFree placeClass := by
    refine .cons ⟨(by intro h; cases h), fun structs hs => ?_⟩ .nil
    obtain rfl := Column.structColumn_inj hs
    refine .cons (fun _ i hi => ?_) .nil
    obtain rfl : i = 0 := Nat.lt_one_iff.mp hi
    rfl
  have hiff := @make_accepts_iff 2 placePool placeNames 3 1 placeClass placeSchema (fun _ => "")
    rfl rfl rfl _ (nowhereBatch_wellFormed (some [true]))
  exact hiff.1.mpr ⟨nowhereBatch_typesMatch _, hfree⟩

/-- With a child that is null there too it is refused, though no row reaches the null. -/
theorem nowhere_refused : accessorClass placePool placeNames 3 1 = .ok placeClass ∧
    messageSchema placePool 3 1 = .ok placeSchema ∧ classSupported placeClass = true ∧
    (nowhereBatch (some [false])).WellFormed ∧
    (nowhereBatch (some [false])).TypesMatch placeSchema ∧
    (nowhereBatch (some [false])).ReachablyClean placeSchema ∧
    make (fun _ => "") (placeNames 1) placeClass (nowhereBatch (some [false])) =
      .error (.invalid "Point column 0 'x': non-nullable, found 1 nulls") :=
  ⟨rfl, rfl, rfl, nowhereBatch_wellFormed _, nowhereBatch_typesMatch _, nowhereBatch_clean _, rfl⟩

end Fletcher.Protoc
