import Fletcher.Lib.Lists
import Fletcher.Arrow.DataType

/-!
# The positional wire format

What the bytes of a row are, as a function of the logical values alone. No
writer, no back-patching, no arrays: this is the meaning both encoders are held
to and both decoders are held against.

A composite is a run of *slots*: a null bitfield with one bit per slot, then the
payloads of the slots that are present. A struct, a list body, a map's values and
a whole row are all this one shape (`slots`). A list puts a 32-bit count in
front, a map puts the count and the keys in front, a union its type code.
-/

namespace Fletcher.Bridge

open Lib Arrow List

variable {enc : Value → Bytes} {v : Value} {vs : List Value}

/-- A run of slots: the null bitfield, then the payloads that are there. -/
def slots (outs : List (Option Bytes)) : Bytes :=
  packBits (outs.map Option.isNone) ++ outs.flatMap (fun out => out.getD [])

/-- A value's slot: nothing when it is null. -/
def slotOut (enc : Value → Bytes) (v : Value) : Option Bytes :=
  if v.isNull then none else some (enc v)

mutual

/-- The payload of a non-null value. -/
def wire : DataType → Value → Bytes
  | .bool, .bool b => [if b then 1 else 0]
  | .fixed _, .fixed v => v.repr
  | .var _, .binary _ data => leBytes 4 data.length ++ data
  | .struct fields, .struct vs => slots (List.zipWith slotOut (wires fields) vs)
  | .list _ ⟨_, t, _⟩, .list vs => leBytes 4 vs.length ++ slots (vs.map (slotOut (wire t)))
  | .fixedSizeList ⟨_, t, _⟩ _, .list vs => slots (vs.map (slotOut (wire t)))
  | .map ⟨_, kt, _⟩ ⟨_, vt, _⟩ _, .map ks vs =>
    leBytes 4 ks.length ++ (ks.flatMap (wire kt) ++ slots (vs.map (slotOut (wire vt))))
  | .union _ fields codes, .union code v =>
    match childId codes code with
    | some k =>
      match (wires fields)[k]? with
      | some enc => code :: enc v
      | none => []
    | none => []
  | .dictionary _ t _, v => wire t v
  | _, _ => []

/-- The payload of a value of each field's type. -/
def wires : List Field → List (Value → Bytes)
  | [] => []
  | ⟨_, t, _⟩ :: fs => wire t :: wires fs

end

/-- A row is a struct's worth of slots. -/
def wireRow (schema : Schema) (row : Row) : Bytes :=
  slots (List.zipWith slotOut (wires schema) row)

theorem wires_eq_map : ∀ fields, wires fields = fields.map (fun f => wire f.type)
  | [] => rfl
  | ⟨_, t, _⟩ :: fs => by rw [wires, wires_eq_map fs]; rfl

@[simp] theorem slotOut_isNone (enc : Value → Bytes) (v : Value) :
    (slotOut enc v).isNone = v.isNull := by
  unfold slotOut
  cases v.isNull <;> rfl

theorem slotOut_of_null (h : v.isNull = true) : slotOut enc v = none := if_pos h

theorem slotOut_of_not_null (h : v.isNull = false) :
    slotOut enc v = some (enc v) := if_neg (by simp [h])

theorem slots_length_le (outs : List (Option Bytes)) :
    bitfieldBytes outs.length ≤ (slots outs).length := by
  simp [slots]

/-- A union value is its code and a value of the child the code selects. -/
theorem hasType_union {mode : UnionMode} {fields : List Field} {codes : List UInt8}
    {code : UInt8} (h : HasType (.union mode fields codes) (.union code v)) :
    ∃ k f, childId codes code = some k ∧ fields[k]? = some f ∧ HasType f.type v := by
  obtain ⟨k, hk, p, hp, hv⟩ := h
  rw [hasTypes_eq_map, getElem?_map, Option.map_eq_some_iff] at hp
  obtain ⟨f, hf, rfl⟩ := hp
  exact ⟨k, f, hk, hf, hv⟩

/-- The payload of a union value is its code and the payload of the active child. -/
theorem wire_union {mode : UnionMode} {fields : List Field} {codes : List UInt8} {code : UInt8}
    {k : Nat} {f : Field} (hk : childId codes code = some k) (hf : fields[k]? = some f) :
    wire (.union mode fields codes) (.union code v) = code :: wire f.type v := by
  rw [wire, hk]
  simp only [wires_eq_map, getElem?_map, hf, Option.map_some]

/-- A value of a type that never encodes to nothing takes at least one byte. -/
theorem wire_pos {t : DataType} (hty : HasType t v) (hne : t.canEncodeEmpty = false) :
    0 < (wire t v).length := by
  induction t generalizing v with
  | bool =>
    cases v <;> simp only [HasType] at hty
    simp [wire]
  | fixed t =>
    cases v <;> simp only [HasType] at hty
    rename_i v
    subst hty
    rw [wire, v.size_eq]
    simp only [DataType.canEncodeEmpty, beq_eq_false_iff_ne] at hne
    omega
  | var t =>
    cases v <;> simp only [HasType] at hty
    rw [wire, length_append, leBytes_length]
    omega
  | struct fields _ =>
    cases v <;> simp only [HasType] at hty
    rename_i vs
    have hlen := hty.length_eq
    have hpos : 0 < fields.length := by
      rw [length_pos_iff]
      simpa [DataType.canEncodeEmpty] using hne
    rw [wire]
    refine Nat.lt_of_lt_of_le ?_ (slots_length_le _)
    simp only [hasTypes_eq_map, wires_eq_map, length_map, length_zipWith] at *
    unfold bitfieldBytes
    omega
  | list _ item _ =>
    cases v <;> simp only [HasType] at hty
    rw [wire, length_append, leBytes_length]
    omega
  | fixedSizeList item n _ =>
    cases v <;> simp only [HasType] at hty
    rw [wire]
    refine Nat.lt_of_lt_of_le ?_ (slots_length_le _)
    simp only [DataType.canEncodeEmpty, beq_eq_false_iff_ne] at hne
    simp only [length_map, hty.1]
    unfold bitfieldBytes
    omega
  | map _ item _ _ _ =>
    cases v <;> simp only [HasType] at hty
    rw [wire, length_append, leBytes_length]
    omega
  | union _ fields _ _ =>
    cases v with
    | union _ v =>
      obtain ⟨k, f, hk, hf, -⟩ := hasType_union hty
      rw [wire_union hk hf, length_cons]
      omega
    | _ => cases hty
  | dictionary _ t _ ih =>
    rw [wire]
    exact ih (by rwa [HasType] at hty) (by rwa [DataType.canEncodeEmpty] at hne)
  | unsupported _ => cases hty

/-! ## Sizes -/

mutual

/-- Every fixed list size in the type is below the limit. -/
def sizesBelow (limit : Nat) : DataType → Bool
  | .struct fields | .union _ fields _ => fieldsSizesBelow limit fields
  | .list _ ⟨_, t, _⟩ => sizesBelow limit t
  | .fixedSizeList ⟨_, t, _⟩ n => decide (n < limit) && sizesBelow limit t
  | .map ⟨_, kt, _⟩ ⟨_, vt, _⟩ _ => sizesBelow limit kt && sizesBelow limit vt
  | .dictionary _ t _ => sizesBelow limit t
  | _ => true

def fieldsSizesBelow (limit : Nat) : List Field → Bool
  | [] => true
  | ⟨_, t, _⟩ :: fs => sizesBelow limit t && fieldsSizesBelow limit fs

end

/-- Every fixed list size fits the 32 bits in which the wire has a count. -/
abbrev fixedSizesFit (t : DataType) : Bool := sizesBelow (2 ^ 32) t

/-- Every fixed list size fits the `int32_t` in which Arrow has it. -/
abbrev sizesFit (t : DataType) : Bool := sizesBelow (2 ^ 31) t

theorem fieldsSizesBelow_iff {limit : Nat} : ∀ {fields : List Field},
    fieldsSizesBelow limit fields = true ↔ ∀ f ∈ fields, sizesBelow limit f.type = true
  | [] => by simp [fieldsSizesBelow]
  | ⟨_, t, _⟩ :: fs => by simp [fieldsSizesBelow, @fieldsSizesBelow_iff limit fs]

theorem sizesBelow_mono {limit larger : Nat} (hle : limit ≤ larger) {t : DataType}
    (ht : sizesBelow limit t = true) : sizesBelow larger t = true := by
  induction t with
  | bool | fixed _ | var _ | unsupported _ => rfl
  | struct fields ih | union mode fields codes ih =>
    rw [sizesBelow, fieldsSizesBelow_iff] at ht ⊢
    exact fun f hf => ih f hf (ht f hf)
  | list kind item ih | dictionary index t ordered ih => exact ih ht
  | fixedSizeList item _ ih =>
    rw [sizesBelow, Bool.and_eq_true, decide_eq_true_eq] at ht ⊢
    exact ⟨Nat.lt_of_lt_of_le ht.1 hle, ih ht.2⟩
  | map _ item _ ihk ihv =>
    rw [sizesBelow, Bool.and_eq_true] at ht ⊢
    exact ⟨ihk ht.1, ihv ht.2⟩

theorem fixedSizesFit_of_sizesFit {t : DataType} (ht : sizesFit t = true) :
    fixedSizesFit t = true :=
  sizesBelow_mono (by decide) ht

/-! ## Runs of slots -/

/-- A slot of the type that the wire can carry: null, or a value that fits. -/
def SlotOk (t : DataType) (v : Value) : Prop := Slot (HasType t) v ∧ v.Encodable

/-- The property of every value of the type that the wire can carry. -/
def Throughout (P : DataType → Value → Prop) (t : DataType) : Prop :=
  ∀ v, HasType t v → v.Encodable → P t v

/-- One slot of each field's type. -/
theorem slotOk_fields {fields : List Field} (hty : Forall₂ Slot (hasTypes fields) vs)
    (henc : Value.AllEncodable vs) : Forall₂ (fun f v => SlotOk f.type v) fields vs := by
  rw [hasTypes_eq_map, forall₂_map_left_iff] at hty
  exact forall₂_and_right hty (Value.allEncodable_iff.mp henc)

/-- Induction over the values of a type that the wire can carry. A composite comes with what
its parts are, and with the property of their types throughout. -/
@[elab_as_elim]
theorem carried_induction {P : DataType → Value → Prop} (bool : ∀ b, P .bool (.bool b))
    (fixed : ∀ x : FixedValue, P (.fixed x.type) (.fixed x))
    (var : ∀ t data, data.length < 2 ^ 32 → P (.var t) (.binary t data))
    (struct : ∀ fields vs, (∀ f ∈ fields, Throughout P f.type) →
      Forall₂ (fun f v => SlotOk f.type v) fields vs → P (.struct fields) (.struct vs))
    (list : ∀ kind (item : Field) vs, Throughout P item.type → vs.length < 2 ^ 32 →
      (∀ v ∈ vs, SlotOk item.type v) → P (.list kind item) (.list vs))
    (fixedSizeList : ∀ (item : Field) vs, Throughout P item.type →
      (∀ v ∈ vs, SlotOk item.type v) → P (.fixedSizeList item vs.length) (.list vs))
    (map : ∀ (key item : Field) sorted ks vs, Throughout P key.type → Throughout P item.type →
      ks.length = vs.length → ks.length < 2 ^ 32 → (∀ k ∈ ks, HasType key.type k ∧ k.Encodable) →
      (∀ v ∈ vs, SlotOk item.type v) → P (.map key item sorted) (.map ks vs))
    (union : ∀ mode fields codes code k (f : Field) v, Throughout P f.type → f ∈ fields →
      childId codes code = some k → fields[k]? = some f → HasType f.type v → v.Encodable →
      P (.union mode fields codes) (.union code v))
    (dictionary : ∀ index t ordered v, Throughout P t → HasType t v → v.Encodable →
      P (.dictionary index t ordered) v) (t : DataType) : Throughout P t := by
  intro v hty henc
  induction t generalizing v with
  | struct fields ih =>
    cases v with
    | struct vs => exact struct fields vs ih (slotOk_fields hty henc)
    | _ => cases hty
  | list kind item ih =>
    cases v with
    | list vs =>
      have hvs := Value.allEncodable_iff.mp henc.2
      exact list kind item vs ih henc.1 fun v hv => ⟨hty v hv, hvs v hv⟩
    | _ => cases hty
  | fixedSizeList item _ ih =>
    cases v with
    | list vs =>
      obtain ⟨rfl, hty⟩ := hty
      have hvs := Value.allEncodable_iff.mp henc.2
      exact fixedSizeList item vs ih fun v hv => ⟨hty v hv, hvs v hv⟩
    | _ => cases hty
  | map key item sorted ihk ihv =>
    cases v with
    | map ks vs =>
      obtain ⟨hlen, hkty, hvty⟩ := hty
      obtain ⟨hcnt, hkn, hkenc, hvenc⟩ := henc
      rw [Value.allEncodable_iff] at hkenc hvenc
      refine map key item sorted ks vs ihk ihv hlen hcnt ?_ fun v hv => ⟨hvty v hv, hvenc v hv⟩
      intro k hk
      rcases hkty k hk with rfl | hty
      · exact absurd (hkn _ hk) (by simp [Value.isNull])
      · exact ⟨hty, hkenc k hk⟩
    | _ => cases hty
  | union mode fields codes ih =>
    cases v with
    | union code v =>
      obtain ⟨k, f, hk, hf, hv⟩ := hasType_union hty
      have hmem := mem_of_getElem? hf
      exact union mode fields codes code k f v (ih f hmem) hmem hk hf hv henc
    | _ => cases hty
  | dictionary index t ordered ih =>
    rw [HasType] at hty
    exact dictionary index t ordered v ih hty henc
  | bool | fixed _ | var _ | unsupported _ =>
    cases v with
    | bool b => first | exact bool b | cases hty
    | fixed x => first | cases hty; exact fixed x | cases hty
    | binary _ data => first | cases hty; exact var _ data henc | cases hty
    | _ => cases hty

/-- The pieces of a run of slots, and its flags, in terms of the values. -/
theorem slots_map (enc : Value → Bytes) (vs : List Value) : slots (vs.map (slotOut enc)) =
      packBits (vs.map Value.isNull) ++ vs.flatMap (fun v => (slotOut enc v).getD []) := by
  simp [slots, flatMap_map, Function.comp_def]

theorem flags_present (h : ∀ v ∈ vs, v.isNull = false) :
    vs.map Value.isNull = replicate vs.length false := by
  rw [eq_replicate_iff]
  refine ⟨by simp, fun b hb => ?_⟩
  obtain ⟨v, hv, rfl⟩ := mem_map.mp hb
  exact h v hv

theorem payloads_present (h : ∀ v ∈ vs, v.isNull = false) :
    (vs.flatMap fun v => (slotOut enc v).getD []) = vs.flatMap enc := by
  refine flatMap_congr fun v hv => ?_
  rw [slotOut_of_not_null (h v hv), Option.getD_some]

/-- A run of slots none of which is null: a cleared bitfield and the payloads. -/
theorem slots_present (h : ∀ v ∈ vs, v.isNull = false) : slots (vs.map (slotOut enc)) =
      replicate (bitfieldBytes vs.length) 0 ++ vs.flatMap enc := by
  rw [slots_map, payloads_present h, flags_present h, packBits_replicate_false]

theorem slotOuts_isNone {fields : List Field} (hlen : fields.length = vs.length) :
    (zipWith slotOut (wires fields) vs).map Option.isNone = vs.map Value.isNull := by
  apply ext_getElem
  · simp [wires_eq_map, hlen]
  · intro i _ _
    simp

/-- Every key takes a byte, so the entry count never exceeds the bytes of the keys. -/
theorem length_le_flatMap_wire {t : DataType} (hne : t.canEncodeEmpty = false) :
    ∀ {ks : List Value}, (∀ k ∈ ks, HasType t k) → ks.length ≤ (ks.flatMap (wire t)).length
  | [], _ => by simp
  | k :: ks, h => by
    have hk := wire_pos (h k (by simp)) hne
    have htail : ∀ u ∈ ks, HasType t u := fun u hu => h u (by simp [hu])
    have ih := length_le_flatMap_wire hne htail
    rw [flatMap_cons, length_append, length_cons]
    omega

end Fletcher.Bridge
