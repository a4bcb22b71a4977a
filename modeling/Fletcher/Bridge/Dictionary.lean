import Fletcher.Bridge.CodecDecode

/-!
# Dictionaries in a row

A dictionary is a way to lay out a column. In a row it is not to be seen: a dictionary value
is written as the value it stands for, and read back as a plain scalar. So a row should be
encoded as the row with its dictionaries resolved is, and be decoded to the resolved row.

The encoder does so unless a dictionary entry is null, which it refuses (`RowResolves`). The
decoder is another matter. A list element, a map key and a map value go through a builder of
the declared type, and what is put there is a plain scalar. `DecodeListElements` has an eye on
the elements of a list, and nothing else has: a dictionary one level further down, in a map, or
in a list of lists meets a builder that does not take it (`Rebuilds`).
-/

namespace Fletcher.Bridge

open Lib Arrow Fletcher.Core Reader List

/-! ## The type without its dictionaries -/

mutual

/-- Every dictionary replaced by its value type. -/
def resolve : DataType → DataType
  | .struct fields => .struct (resolveFields fields)
  | .list kind ⟨n, t, b⟩ => .list kind ⟨n, resolve t, b⟩
  | .fixedSizeList ⟨n, t, b⟩ size => .fixedSizeList ⟨n, resolve t, b⟩ size
  | .map ⟨kn, kt, kb⟩ ⟨vn, vt, vb⟩ sorted => .map ⟨kn, resolve kt, kb⟩ ⟨vn, resolve vt, vb⟩ sorted
  | .union mode fields codes => .union mode (resolveFields fields) codes
  | .dictionary _ t _ => resolve t
  | t => t

def resolveFields : List Field → List Field
  | [] => []
  | ⟨n, t, b⟩ :: fs => ⟨n, resolve t, b⟩ :: resolveFields fs

end

theorem resolveFields_eq_map : ∀ fields, resolveFields fields =
    fields.map fun f => ⟨f.name, resolve f.type, f.nullable⟩
  | [] => rfl
  | ⟨_, t, _⟩ :: fs => by rw [resolveFields, resolveFields_eq_map fs]; rfl

/-- What holds of every resolved field holds of the resolved fields. -/
theorem forall_resolveFields {P : DataType → Prop} {fields : List Field}
    (h : ∀ f ∈ fields, P (resolve f.type)) : ∀ f ∈ resolveFields fields, P f.type := by
  intro f hf
  rw [resolveFields_eq_map] at hf
  obtain ⟨g, hg, rfl⟩ := mem_map.mp hf
  exact h g hg

theorem resolve_supported {t : DataType} (ht : t.carried = true) :
    (resolve t).supported = true := by
  induction ht using DataType.carried_rec with
  | bool | fixed _ | var _ => rfl
  | struct fields _ ih =>
    rw [resolve, DataType.supported, fieldsSupported_iff]
    exact forall_resolveFields (P := fun t => t.supported = true) ih
  | list _ _ _ ih | fixedSizeList _ _ _ ih | dictionary _ _ _ _ ih => exact ih
  | map _ _ _ _ ihk ihv => exact supported_map.mpr ⟨ihk, ihv⟩
  | union mode fields codes ht ih =>
    rw [resolve, supported_union, resolveFields_eq_map, length_map, ← resolveFields_eq_map]
    exact ⟨(carried_union.mp ht).1, forall_resolveFields (P := fun t => t.supported = true) ih⟩

theorem resolve_fixedSizesFit {t : DataType} (ht : fixedSizesFit t = true) :
    fixedSizesFit (resolve t) = true := by
  induction t with
  | bool | fixed _ | var _ | unsupported _ => rfl
  | struct fields ih =>
    rw [fixedSizesFit, sizesBelow, fieldsSizesBelow_iff] at ht
    rw [resolve, fixedSizesFit, sizesBelow, fieldsSizesBelow_iff]
    exact forall_resolveFields (P := fun t => fixedSizesFit t = true) fun f hf => ih f hf (ht f hf)
  | list _ _ ih => exact ih ht
  | fixedSizeList item n ih =>
    rw [fixedSizesFit, sizesBelow, Bool.and_eq_true] at ht
    rw [resolve, fixedSizesFit, sizesBelow, Bool.and_eq_true]
    exact ⟨ht.1, ih ht.2⟩
  | map _ _ _ ihk ihv =>
    rw [fixedSizesFit, sizesBelow, Bool.and_eq_true] at ht
    rw [resolve, fixedSizesFit, sizesBelow, Bool.and_eq_true]
    exact ⟨ihk ht.1, ihv ht.2⟩
  | union mode fields codes ih =>
    rw [fixedSizesFit, sizesBelow, fieldsSizesBelow_iff] at ht
    rw [resolve, fixedSizesFit, sizesBelow, fieldsSizesBelow_iff]
    exact forall_resolveFields (P := fun t => fixedSizesFit t = true) fun f hf => ih f hf (ht f hf)
  | dictionary _ t _ ih => exact ih ht

theorem wires_resolveFields {fields : List Field}
    (h : ∀ f ∈ fields, wire (resolve f.type) = wire f.type) :
    wires (resolveFields fields) = wires fields := by
  rw [wires_eq_map, wires_eq_map, resolveFields_eq_map, List.map_map]
  exact map_congr_left h

/-- **Dictionaries do not show on the wire.** -/
theorem wire_resolve (t : DataType) : wire (resolve t) = wire t := by
  induction t with
  | bool | fixed _ | var _ | unsupported _ => rfl
  | struct fields ih =>
    funext v
    cases v <;> simp only [resolve, wire, wires_resolveFields ih]
  | list kind item ih | fixedSizeList item n ih =>
    obtain ⟨name, t, nullable⟩ := item
    funext v
    cases v <;> simp only [resolve, wire, ih]
  | map key item sorted ihk ihv =>
    obtain ⟨kn, kt, kb⟩ := key
    obtain ⟨vn, vt, vb⟩ := item
    funext v
    cases v <;> simp only [resolve, wire, ihk, ihv]
  | union mode fields codes ih =>
    funext v
    cases v <;> simp only [resolve, wire, wires_resolveFields ih]
  | dictionary index t ordered ih =>
    funext v
    rw [resolve, ih, wire]

theorem wireRow_resolve (schema : Schema) (row : Row) :
    wireRow (resolveFields schema) row = wireRow schema row := by
  rw [wireRow, wires_resolveFields fun f _ => wire_resolve f.type, wireRow]

/-! ## What the builders take -/

mutual

/-- Whether a builder of the declared type takes the scalar the decoder has for the value. A
dictionary value comes as a plain scalar, and a list of dictionary values as a list typed by
its plain elements; the builders of these types take neither. A struct passes its fields on to
its builder's children, a union its active child. -/
def takes : DataType → Value → Bool
  | .dictionary _ _ _, _ => false
  | .list _ ⟨_, .dictionary _ _ _, _⟩, _ => false
  | .fixedSizeList ⟨_, .dictionary _ _ _, _⟩ _, _ => false
  | .struct fields, .struct vs =>
    (List.zipWith (fun p v => v.isNull || p v) (fieldsTake fields) vs).all id
  | .union _ fields codes, .union code v =>
    match childId codes code with
    | some k =>
      match (fieldsTake fields)[k]? with
      | some p => p v
      | none => true
    | none => true
  | _, _ => true

/-- The same for a value of each field's type. -/
def fieldsTake : List Field → List (Value → Bool)
  | [] => []
  | ⟨_, t, _⟩ :: fs => takes t :: fieldsTake fs

end

theorem fieldsTake_eq_map : ∀ fields, fieldsTake fields = fields.map fun f => takes f.type
  | [] => rfl
  | ⟨_, t, _⟩ :: fs => by rw [fieldsTake, fieldsTake_eq_map fs]; rfl

/-- What Arrow documents about builders where there are dictionaries: a dictionary builder
takes no scalar but a dictionary scalar, and no builder a scalar of another type. -/
structure LawfulDictionaries (A : Api) : Prop where
  makeBuilder_ok : ∀ t, t.carried = true → A.makeBuilder t = none
  appendNull_ok : ∀ t, t.carried = true → A.appendNull t = none
  appendScalar_iff : ∀ t v, t.carried = true → HasType t v →
    (A.appendScalar t v = none ↔ takes t v = true)

mutual

/-- Every builder on the way to the value takes what is put into it. -/
def Rebuilds : DataType → Value → Prop
  | .struct fields, .struct vs =>
    List.Forall₂ (fun p v => v.isNull = false → p v) (fieldsRebuild fields) vs
  | .list _ ⟨_, t, _⟩, .list vs =>
    ∀ v ∈ vs, v.isNull = false → Rebuilds t v ∧ takes t.element v = true
  | .fixedSizeList ⟨_, t, _⟩ _, .list vs =>
    ∀ v ∈ vs, v.isNull = false → Rebuilds t v ∧ takes t.element v = true
  | .map ⟨_, kt, _⟩ ⟨_, vt, _⟩ _, .map ks vs =>
    (∀ k ∈ ks, k.isNull = false → Rebuilds kt k ∧ takes kt k = true) ∧
      ∀ v ∈ vs, v.isNull = false → Rebuilds vt v ∧ takes vt v = true
  | .union _ fields codes, .union code v => ∀ k, childId codes code = some k →
    ∀ p, (fieldsRebuild fields)[k]? = some p → p v
  | _, _ => True

/-- The same for a value of each field's type. -/
def fieldsRebuild : List Field → List (Value → Prop)
  | [] => []
  | ⟨_, t, _⟩ :: fs => Rebuilds t :: fieldsRebuild fs

end

theorem fieldsRebuild_eq_map : ∀ fields, fieldsRebuild fields = fields.map fun f => Rebuilds f.type
  | [] => rfl
  | ⟨_, t, _⟩ :: fs => by rw [fieldsRebuild, fieldsRebuild_eq_map fs]; rfl

/-- Every builder on the way to the row takes what is put into it. -/
def RowRebuilds (schema : Schema) (row : Row) : Prop :=
  List.Forall₂ (fun p v => v.isNull = false → p v) (fieldsRebuild schema) row

section

variable {A : Api} {t : DataType}

theorem element_carried (ht : t.carried = true) : t.element.carried = true := by
  induction t with
  | dictionary index t ordered ih =>
    exact ih (DataType.carried_of_supported (DataType.supported_of_dictionaryValue ht))
  | _ => exact ht

theorem hasType_element {v : Value} (hv : HasType t v) : HasType t.element v := by
  induction t with
  | dictionary index t ordered ih =>
    rw [HasType] at hv
    exact ih hv
  | _ => exact hv

theorem buildsSlot_iff (hD : LawfulDictionaries A) {b : DataType} (hb : b.carried = true)
    {p q : Value → Prop} {v : Value} (hv : v.isNull = false → HasType b v)
    (hpq : v.isNull = false → (p v ↔ q v)) :
    BuildsSlot A b p v ↔ (v.isNull = false → q v ∧ takes b v = true) := by
  unfold BuildsSlot
  cases hn : v.isNull with
  | true => simp [hD.appendNull_ok b hb]
  | false =>
    rw [if_neg (by simp), hD.appendScalar_iff b v hb (hv hn), hpq hn]
    exact ⟨fun h _ => h, fun h => h rfl⟩

/-- **Which values the builders take.** -/
theorem builds_iff (hD : LawfulDictionaries A) (ht : t.carried = true) {v : Value}
    (hv : HasType t v) : Builds A t v ↔ Rebuilds t v := by
  -- the elements of a run, through a builder of their own type
  have slots : ∀ {t : DataType}, t.carried = true →
      (∀ {v : Value}, HasType t v → (Builds A t v ↔ Rebuilds t v)) → ∀ {vs : List Value},
      (∀ v ∈ vs, Slot (HasType t) v) → ∀ {b : DataType}, b.carried = true →
      (∀ {v : Value}, HasType t v → HasType b v) →
      ((∀ v ∈ vs, BuildsSlot A b (Builds A t) v) ↔
        ∀ v ∈ vs, v.isNull = false → Rebuilds t v ∧ takes b v = true) := by
    intro t ht ih vs hvs b hb hty
    refine forall₂_congr fun v hv => ?_
    have hslot : v.isNull = false → HasType t v := fun hn => by
      rcases hvs v hv with rfl | h
      · cases hn
      · exact h
    exact buildsSlot_iff hD hb (fun hn => hty (hslot hn)) fun hn => ih (hslot hn)
  induction ht using DataType.carried_rec generalizing v with
  | bool | fixed _ | var _ | dictionary _ _ _ _ _ => exact Iff.rfl
  | struct fields _ ih =>
    cases v with
    | struct vs =>
      rw [HasType, hasTypes_eq_map, forall₂_map_left_iff] at hv
      rw [Builds, Rebuilds, fieldsBuild_eq_map, fieldsRebuild_eq_map, forall₂_map_left_iff,
        forall₂_map_left_iff]
      refine forall₂_congr_mem hv fun f hf v hslot => forall_congr' fun hn => ?_
      rcases hslot with rfl | hty
      · cases hn
      · exact ih f hf hty
    | _ => cases hv
  | list kind item ht ih =>
    cases v with
    | list vs =>
      have hrun := slots ht ih hv (element_carried ht) hasType_element
      rw [Builds, Rebuilds, and_iff_right (hD.makeBuilder_ok _ (element_carried ht))]
      exact hrun
    | _ => cases hv
  | fixedSizeList item n ht ih =>
    cases v with
    | list vs =>
      have hrun := slots ht ih hv.2 (element_carried ht) hasType_element
      rw [Builds, Rebuilds, and_iff_right (hD.makeBuilder_ok _ (element_carried ht))]
      exact hrun
    | _ => cases hv
  | map key item sorted ht ihk ihv =>
    obtain ⟨htk, htv⟩ := carried_map.mp ht
    cases v with
    | map ks vs =>
      obtain ⟨-, hks, hvs⟩ := hv
      have hkeys := slots htk ihk hks htk id
      have hits := slots htv ihv hvs htv id
      rw [Builds, Rebuilds, and_iff_right (hD.makeBuilder_ok _ htk),
        and_iff_right (hD.makeBuilder_ok _ htv)]
      exact and_congr hkeys hits
    | _ => cases hv
  | union mode fields codes _ ih =>
    cases v with
    | union code v =>
      obtain ⟨k, f, hk, hf, hv⟩ := hasType_union hv
      have hmem := mem_of_getElem? hf
      have hch := ih f hmem hv
      rw [Builds, Rebuilds, fieldsBuild_eq_map, fieldsRebuild_eq_map]
      simp only [hk, Option.some.injEq, forall_eq', getElem?_map, hf, Option.map_some]
      exact hch
    | _ => cases hv

end

/-! ## Rows -/

section

variable {A : Api} {schema : Schema} {row : Row}

theorem rowBuilds_iff (hD : LawfulDictionaries A) (ht : ∀ f ∈ schema, f.type.carried = true)
    (hrow : Forall₂ (fun f v => Slot (HasType f.type) v) schema row) :
    RowBuilds A schema row ↔ RowRebuilds schema row := by
  -- a row is a struct
  have hstr : HasType (.struct schema) (.struct row) := by
    rwa [HasType, hasTypes_eq_map, forall₂_map_left_iff]
  have hcar : (DataType.struct schema).carried = true := by
    rwa [DataType.carried, fieldsCarried_iff]
  exact builds_iff hD hcar hstr

/-- **Which written rows are read back**, dictionaries and all. -/
theorem decodeRow_wireRow_iff (hA : A.Lawful) (hD : LawfulDictionaries A)
    (ht : ∀ f ∈ schema, f.type.carried = true)
    (hrow : Forall₂ (fun f v => Slot (HasType f.type) v) schema row)
    (henc : ∀ v ∈ row, v.Encodable) :
    decodeRow A schema (wireRow schema row) = .ok row ↔
      RowRebuilds schema row ∧ RowMapsFit schema row := by
  rw [decodeRow_keeps hA ht, parseRow_wireRow ht (forall₂_and_right hrow henc),
    rowBuilds_iff hD ht hrow, and_comm]

end

/-- **When dictionaries are transparent.** A row and the row with its dictionaries resolved,
given in any way at all, encode to the same bytes, and these decode to the resolved row, exactly
when, as far as the resolved row can be encoded at all, no dictionary entry in use is null,
every builder takes what the decoder puts into it, and every map count fits. -/
theorem dictionaries_transparent_iff {A : Api} (hA : A.Lawful) (hD : LawfulDictionaries A)
    {schema : Schema} (ht : ∀ f ∈ schema, f.type.carried = true)
    (hfit : ∀ f ∈ schema, fixedSizesFit f.type = true) {row resolved : List RowScalar}
    (hrow : RowGiven A schema row) (hresolved : RowGiven A (resolveFields schema) resolved)
    (hsame : rowOf (resolveFields schema) resolved = rowOf schema row) :
    ((∀ bytes, encodeRow A schema row = .ok bytes ↔
        encodeRow A (resolveFields schema) resolved = .ok bytes) ∧
      ∀ bytes, encodeRow A schema row = .ok bytes →
        decodeRow A schema bytes = .ok (rowOf schema row)) ↔
    ((∀ v ∈ rowOf schema row, v.Encodable) → RowResolves schema row ∧
      RowRebuilds schema (rowOf schema row) ∧ RowMapsFit schema (rowOf schema row)) := by
  have hsupported : ∀ f ∈ resolveFields schema, f.type.supported = true :=
    forall_resolveFields (P := fun t => t.supported = true) fun f hf => resolve_supported (ht f hf)
  have hsizes : ∀ f ∈ resolveFields schema, fixedSizesFit f.type = true :=
    forall_resolveFields (P := fun t => fixedSizesFit t = true) fun f hf =>
      resolve_fixedSizesFit (hfit f hf)
  have hplain : ∀ bytes, encodeRow A (resolveFields schema) resolved = .ok bytes ↔
      (∀ v ∈ rowOf schema row, v.Encodable) ∧ bytes = wireRow schema (rowOf schema row) := by
    intro bytes
    rw [encodeRow_ok_iff_resolves hA (fun f hf => DataType.carried_of_supported (hsupported f hf))
      hsizes hresolved, hsame, wireRow_resolve]
    exact and_iff_right (hresolved.resolves hsupported)
  have hdict : ∀ bytes, encodeRow A schema row = .ok bytes ↔ RowResolves schema row ∧
      (∀ v ∈ rowOf schema row, v.Encodable) ∧ bytes = wireRow schema (rowOf schema row) :=
    fun bytes => encodeRow_ok_iff_resolves hA ht hfit hrow
  have hslots := rowOf_slots_of_valid ht (hrow.imp fun _ _ hs => hs.2)
  simp only [hplain, hdict]
  constructor
  · rintro ⟨hbytes, hdecode⟩ henc
    obtain ⟨hr, -, -⟩ := (hbytes _).mpr ⟨henc, rfl⟩
    have hread := hdecode _ ⟨hr, henc, rfl⟩
    rw [decodeRow_wireRow_iff hA hD ht hslots henc] at hread
    exact ⟨hr, hread⟩
  · intro h
    refine ⟨fun bytes => ⟨fun hb => hb.2, fun hb => ⟨(h hb.1).1, hb⟩⟩, ?_⟩
    rintro bytes ⟨-, henc, rfl⟩
    rw [decodeRow_wireRow_iff hA hD ht hslots henc]
    exact (h henc).2

/-! ## Two rows -/

/-- Arrow with builders that are as strict as documented. -/
def strictBuilders : Api :=
  { Api.permissive with
    appendScalar := fun t v => if takes t v then none else some "Invalid: type mismatch" }

theorem takes_of_supported {t : DataType} (ht : t.supported = true) (v : Value) :
    takes t v = true := by
  induction ht using DataType.supported_rec generalizing v with
  | bool | fixed _ | var _ | map _ _ _ _ _ _ => simp [takes]
  | list kind item ht _ | fixedSizeList item n ht _ =>
    obtain ⟨name, t, nullable⟩ := item
    cases t <;> first | rfl | cases ht
  | struct fields _ ih =>
    cases v with
    | struct vs =>
      rw [takes, fieldsTake_eq_map, zipWith_map_left, all_eq_true]
      intro b hb
      obtain ⟨i, hi, rfl⟩ := mem_iff_getElem.mp hb
      rw [getElem_zipWith, ih _ (getElem_mem _)]
      simp
    | _ => simp [takes]
  | union mode fields codes _ ih =>
    cases v with
    | union code v =>
      rw [takes]
      split
      · split
        · next p hp =>
          rw [fieldsTake_eq_map, getElem?_map, Option.map_eq_some_iff] at hp
          obtain ⟨f, hf, rfl⟩ := hp
          have hmem := mem_of_getElem? hf
          exact ih f hmem v
        · rfl
      · rfl
    | _ => simp [takes]

theorem strictBuilders_lawful : strictBuilders.Lawful :=
  { Api.permissive_lawful with
    appendScalar_ok := fun _ v ht _ => if_pos (takes_of_supported ht v) }

theorem strictBuilders_lawfulDictionaries : LawfulDictionaries strictBuilders where
  makeBuilder_ok _ _ := rfl
  appendNull_ok _ _ := rfl
  appendScalar_iff t v _ _ := by
    simp only [strictBuilders]
    cases takes t v <;> simp

/-- The words `a` and `bc`, as a dictionary. -/
def words : ArrayData := .binary ⟨2, 0, none⟩ [0, 1, 3] [97, 98, 99]

/-- A word of a dictionary. -/
def wordType : DataType := .dictionary .int8 (.var .string) false

/-- A word, and a list of words. -/
def wordsSchema : Schema :=
  [⟨"word", wordType, true⟩, ⟨"words", .list .list ⟨"item", wordType, true⟩, true⟩]

def wordsRow : List RowScalar :=
  [⟨wordType, .dictionary (.var .string) (some 1) words⟩,
    ⟨.list .list ⟨"item", wordType, true⟩, .list (.dictionary ⟨2, 0, none⟩ [1, 0] words)⟩]

def wordsResolved : List RowScalar :=
  [⟨.var .string, .binary .string [98, 99]⟩,
    ⟨.list .list ⟨"item", .var .string, true⟩,
      .list (.binary ⟨2, 0, none⟩ [0, 2, 3] [98, 99, 97])⟩]

theorem words_valid : words.Valid (.var .string) :=
  show ArrayData.OffsetsIn _ _ _ by decide

theorem wordsRow_given : RowGiven strictBuilders wordsSchema wordsRow := by
  refine .cons ⟨fun _ => rfl, rfl, words_valid⟩ (.cons ⟨fun _ => rfl, ?_, words_valid⟩ .nil)
  intro i hi _
  have hcases : i = 0 ∨ i = 1 := by
    simp only [] at hi
    omega
  rcases hcases with rfl | rfl
  · exact ⟨1, rfl, by decide⟩
  · exact ⟨0, rfl, by decide⟩

theorem wordsResolved_given :
    RowGiven strictBuilders (resolveFields wordsSchema) wordsResolved := by
  refine .cons ⟨fun _ => rfl, rfl⟩ (.cons ⟨fun _ => rfl, ?_⟩ .nil)
  intro i hi
  have hcases : i = 0 ∨ i = 1 := by
    simp only [] at hi
    omega
  rcases hcases with rfl | rfl <;> decide

theorem wordsRow_resolves : RowResolves wordsSchema wordsRow := by
  refine .cons ⟨1, rfl, by decide, rfl⟩ (.cons ?_ .nil)
  intro i hi _
  have hcases : i = 0 ∨ i = 1 := by
    have hlt := mem_range'_1.mp hi
    simp only [ArrayData.length, ArrayData.slots] at hlt
    omega
  rcases hcases with rfl | rfl <;> rfl

/-- A word and a list of words go through unseen. -/
theorem wordsRow_transparent : (∀ bytes, encodeRow strictBuilders wordsSchema wordsRow = .ok bytes ↔
      encodeRow strictBuilders (resolveFields wordsSchema) wordsResolved = .ok bytes) ∧
    ∀ bytes, encodeRow strictBuilders wordsSchema wordsRow = .ok bytes →
      decodeRow strictBuilders wordsSchema bytes = .ok (rowOf wordsSchema wordsRow) := by
  refine (dictionaries_transparent_iff strictBuilders_lawful strictBuilders_lawfulDictionaries
    (by decide) (by decide) wordsRow_given wordsResolved_given rfl).mpr fun henc =>
      ⟨wordsRow_resolves, ?_, ?_⟩
  · refine .cons (fun _ => trivial) (.cons (fun _ v hv _ => ⟨trivial, ?_⟩) .nil)
    exact takes_of_supported rfl v
  · have hslots := rowOf_slots_of_valid (by decide) (wordsRow_given.imp fun _ _ hs => hs.2)
    exact rowMapsFit_of_keysTakeBytes (by decide) (by decide) (forall₂_and_right hslots henc)

/-- Words kept under words: the key type is a dictionary. -/
def keyedSchema : Schema :=
  [⟨"counts", .map ⟨"key", wordType, false⟩ ⟨"value", .bool, true⟩ false, true⟩]

def keyedRow : List RowScalar :=
  [⟨.map ⟨"key", wordType, false⟩ ⟨"value", .bool, true⟩ false,
    .map (.struct ⟨1, 0, none⟩ [.dictionary ⟨1, 0, none⟩ [1] words, .bool ⟨1, 0, none⟩ [true]])⟩]

def keyedResolved : List RowScalar :=
  [⟨.map ⟨"key", .var .string, false⟩ ⟨"value", .bool, true⟩ false,
    .map (.struct ⟨1, 0, none⟩ [.binary ⟨1, 0, none⟩ [0, 2] [98, 99], .bool ⟨1, 0, none⟩ [true]])⟩]

/-- **A map with a dictionary for its keys is encoded and not decoded.** The bytes are those of
the resolved row; the key builder refuses the first key. -/
theorem keyedRow_not_decoded :
    rowOf (resolveFields keyedSchema) keyedResolved = rowOf keyedSchema keyedRow ∧
    encodeRow strictBuilders keyedSchema keyedRow = .ok [0, 1, 0, 0, 0, 2, 0, 0, 0, 98, 99, 0, 1] ∧
    encodeRow strictBuilders (resolveFields keyedSchema) keyedResolved =
      .ok [0, 1, 0, 0, 0, 2, 0, 0, 0, 98, 99, 0, 1] ∧
    decodeRow strictBuilders keyedSchema [0, 1, 0, 0, 0, 2, 0, 0, 0, 98, 99, 0, 1] =
      .error (.invalidArgument "Codec: key append failed: Invalid: type mismatch") :=
  ⟨rfl, rfl, rfl, rfl⟩

end Fletcher.Bridge
