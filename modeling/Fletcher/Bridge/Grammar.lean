import Fletcher.Bridge.Codec
import Fletcher.Bridge.WireFormat

/-!
# The grammar of a row

What the wire format says a buffer means, with nothing else in it: no builders, no bulk
runs, no texts. `parse t` reads one value of the type and `parseRow` a row, which has to end
where the buffer ends.

It is looser than the image of the encoder. Any byte but zero is a true boolean, and the
bits of a bitfield behind its last slot are not looked at, so `wire` and `wireRow` are only
one way to write a value down.

The decoders of the repository are held against this one. `decodeRow_same` does it for
`Codec::DecodeRow`.
-/

namespace Fletcher.Bridge

open Lib Arrow Fletcher.Core Reader
open List (Forall₂ forall₂_map_left_iff getElem?_map length_replicate map_replicate
  mem_of_getElem? replicate zipWith)

variable {v : Value} {x : Read Value} {w : Nat}

variable {schema : Schema} {buf : Bytes} {row : Row}

abbrev Parse := Reader Unit

def parseU32 : Parse Nat := do
  let bs ← take () 4
  pure (ofLe bs)

def parseByte : Parse UInt8 := do
  let bs ← take () 1
  pure (bs.getD 0 0)

/-- A run of slots: the bitfield, then what is present. -/
def parseSlots (xs : List (Parse Value)) : Parse (List Value) := do
  let bitfield ← take () (bitfieldBytes xs.length)
  runAll (List.zipWith (slot .null) xs (nullFlags bitfield xs.length))

mutual

/-- One value of the type that is not null. -/
def parse : DataType → Parse Value
  | .bool => do
    let b ← parseByte
    pure (.bool (b != 0))
  | .fixed t => do
    let bs ← take () t.width
    pure (.fixed (FixedValue.ofBytes t bs))
  | .var t => do
    let len ← parseU32
    let data ← take () len
    pure (.binary t data)
  | .struct fields => do
    let vs ← parseSlots (parsers fields)
    pure (.struct vs)
  | .list _ ⟨_, t, _⟩ => do
    let count ← parseU32
    let vs ← parseSlots (List.replicate count (parse t))
    pure (.list vs)
  | .fixedSizeList ⟨_, t, _⟩ size => do
    let vs ← parseSlots (List.replicate size (parse t))
    pure (.list vs)
  | .map ⟨_, kt, _⟩ ⟨_, vt, _⟩ _ => do
    let count ← parseU32
    let left ← remaining
    -- a key takes a byte at least, or so the format has it
    require () (count ≤ left)
    let ks ← runAll (List.replicate count (parse kt))
    let vs ← parseSlots (List.replicate count (parse vt))
    pure (.map ks vs)
  | .union _ fields codes => do
    let code ← parseByte
    match childId codes code with
    | some k =>
      match (parsers fields)[k]? with
      | some x => do
        let v ← x
        pure (.union code v)
      | none => fail ()
    | none => fail ()
  | .dictionary _ t _ => parse t
  | .unsupported _ => fail ()

/-- The parser of each field's type. -/
def parsers : List Field → List (Parse Value)
  | [] => []
  | ⟨_, t, _⟩ :: fs => parse t :: parsers fs

end

theorem parsers_eq_map : ∀ fields, parsers fields = fields.map fun f => parse f.type
  | [] => rfl
  | ⟨_, t, _⟩ :: fs => by rw [parsers, parsers_eq_map fs]; rfl

/-- A row, up to the end of the buffer. -/
def parseRow (schema : Schema) (buf : Bytes) : Option Row :=
  match parseSlots (parsers schema) buf with
  | .ok (row, []) => some row
  | _ => none

theorem parseRow_eq_some :
    parseRow schema buf = some row ↔ parseSlots (parsers schema) buf = .ok (row, []) := by
  unfold parseRow
  constructor
  · intro h
    split at h
    · next hread =>
      cases h
      exact hread
    · cases h
  · intro h
    rw [h]

@[simp] theorem nullFlags_length (bitfield : Bytes) (count : Nat) :
    (nullFlags bitfield count).length = count := by simp [nullFlags]

theorem nullFlags_packBits {flags : List Bool} {n : Nat} (h : flags.length = n) :
    nullFlags (packBits flags) n = flags := by
  subst h
  unfold nullFlags
  apply List.ext_getElem
  · simp
  · intro i _ h2
    simp [readBit_packBits, h2]

theorem reads_packBits {ε : Type} {e : ε} {flags : List Bool} {n : Nat} (h : flags.length = n) :
    Reads (take e (bitfieldBytes n)) (packBits flags) (packBits flags) :=
  reads_take_of_length e (by rw [packBits_length, h])

/-! ## What is parsed has the type and can be written -/

/-- A value of the type; it can be written again where the fixed sizes fit. -/
def Parsed (t : DataType) (v : Value) : Prop :=
  HasType t v ∧ (fixedSizesFit t = true → v.Encodable)

theorem slot_of_parsed {t : DataType} (h : Slot (Parsed t) v) : Slot (HasType t) v :=
  h.imp_right And.left

theorem slotOk_of_parsed {t : DataType} (h : Slot (Parsed t) v)
    (ht : fixedSizesFit t = true) : SlotOk t v := by
  rcases h with rfl | ⟨hty, henc⟩
  · exact ⟨.inl rfl, trivial⟩
  · exact ⟨.inr hty, henc ht⟩

theorem yields_slot {x : Parse Value} {P : Value → Prop} (hx : Yields x P) (flag : Bool) :
    Yields (slot .null x flag) (Slot P) := by
  cases flag with
  | true => exact yields_pure (.inl rfl)
  | false => exact hx.mono fun v hv => .inr hv

theorem yields_zipWith_slot : ∀ {xs : List (Parse Value)} {Ps : List (Value → Prop)}
    (flags : List Bool), Forall₂ Yields xs Ps → flags.length = xs.length →
    Yields (runAll (zipWith (slot .null) xs flags)) fun vs => Forall₂ Slot Ps vs
  | [], _, _, .nil, _ => yields_pure .nil
  | x :: xs, P :: Ps, flag :: flags, .cons hx hxs, hlen => by
    have hrest := yields_zipWith_slot flags hxs (Nat.succ.inj hlen)
    exact (yields_slot hx flag).bind fun v hv => hrest.bind fun vs hvs => yields_pure (.cons hv hvs)

theorem yields_parseSlots {xs : List (Parse Value)} {Ps : List (Value → Prop)}
    (h : Forall₂ Yields xs Ps) :
    Yields (parseSlots xs) fun vs => Forall₂ Slot Ps vs :=
  yields_after fun _ => yields_zipWith_slot _ h (nullFlags_length _ _)

/-- The same parser in every slot. -/
theorem yields_parseSlots_replicate {x : Parse Value} {P : Value → Prop} (hx : Yields x P)
    (count : Nat) :
    Yields (parseSlots (replicate count x)) fun vs =>
      vs.length = count ∧ ∀ v ∈ vs, Slot P v := by
  refine (yields_parseSlots (forall₂_replicate hx count)).mono fun vs hvs => ⟨?_, fun v hv => ?_⟩
  · rw [← hvs.length_eq, length_replicate]
  · obtain ⟨k, hk⟩ := List.mem_iff_getElem?.mp hv
    obtain ⟨Q, hQ, hslot⟩ := forall₂_getElem?_right hvs hk
    rwa [List.eq_of_mem_replicate (mem_of_getElem? hQ)] at hslot

/-- The slots of a struct or a row. -/
theorem yields_fields {fields : List Field}
    (h : ∀ f ∈ fields, Yields (parse f.type) (Parsed f.type)) :
    Yields (parseSlots (parsers fields)) fun vs =>
      Forall₂ (fun f v => Slot (Parsed f.type) v) fields vs := by
  have hall : Forall₂ Yields (parsers fields) (fields.map fun f => Parsed f.type) := by
    rw [parsers_eq_map, forall₂_map_left_iff, List.forall₂_map_right_iff, List.forall₂_same]
    exact h
  exact (yields_parseSlots hall).mono fun vs hvs => forall₂_map_left_iff.mp hvs

theorem yields_parseU32 : Yields parseU32 fun n => n < 2 ^ 32 :=
  yields_take.bind fun _ hbs => yields_pure (ofLe_lt_four hbs)

/-- Counts come from 32-bit fields, and keys have no null bits. -/
theorem yields_parsed (t : DataType) : Yields (parse t) (Parsed t) := by
  induction t with
  | bool => exact yields_after fun b => yields_pure ⟨trivial, fun _ => trivial⟩
  | fixed t => exact yields_after fun bs => yields_pure ⟨rfl, fun _ => trivial⟩
  | var t =>
    refine yields_parseU32.bind fun len hlen => ?_
    refine yields_take.bind fun data hdata => yields_pure ⟨rfl, fun _ => ?_⟩
    rw [Value.Encodable, hdata]
    exact hlen
  | struct fields ih =>
    refine (yields_fields ih).bind fun vs hvs => yields_pure ⟨?_, fun ht => ?_⟩
    · rw [HasType, hasTypes_eq_map, forall₂_map_left_iff]
      exact hvs.imp fun f v hv => slot_of_parsed hv
    · rw [fixedSizesFit, sizesBelow, fieldsSizesBelow_iff] at ht
      rw [Value.Encodable, Value.allEncodable_iff]
      intro v hv
      obtain ⟨k, hk⟩ := List.mem_iff_getElem?.mp hv
      obtain ⟨f, hf, hslot⟩ := forall₂_getElem?_right hvs hk
      exact (slotOk_of_parsed hslot (ht f (mem_of_getElem? hf))).2
  | list _ item ih =>
    refine yields_parseU32.bind fun count hcnt => ?_
    refine (yields_parseSlots_replicate ih count).bind fun vs hvs => yields_pure ⟨?_, fun ht => ?_⟩
    · exact fun v hv => slot_of_parsed (hvs.2 v hv)
    · rw [Value.Encodable, Value.allEncodable_iff, hvs.1]
      exact ⟨hcnt, fun v hv => (slotOk_of_parsed (hvs.2 v hv) ht).2⟩
  | fixedSizeList item size ih =>
    refine (yields_parseSlots_replicate ih size).bind fun vs hvs => yields_pure ⟨?_, fun ht => ?_⟩
    · exact ⟨hvs.1, fun v hv => slot_of_parsed (hvs.2 v hv)⟩
    · rw [fixedSizesFit, sizesBelow, Bool.and_eq_true, decide_eq_true_eq] at ht
      rw [Value.Encodable, Value.allEncodable_iff, hvs.1]
      exact ⟨ht.1, fun v hv => (slotOk_of_parsed (hvs.2 v hv) ht.2).2⟩
  | map key item _ ihk ihv =>
    refine yields_parseU32.bind fun count hcnt => yields_after fun _ => yields_after fun _ => ?_
    have hkeys : Yields (runAll (replicate count (parse key.type))) fun ks =>
        ks.length = (replicate count (parse key.type)).length ∧ ∀ k ∈ ks, Parsed key.type k :=
      yields_runAll_all fun x hx => List.eq_of_mem_replicate hx ▸ ihk
    refine hkeys.bind fun ks hks =>
      (yields_parseSlots_replicate ihv count).bind fun vs hvs => yields_pure ⟨?_, fun ht => ?_⟩
    · have hlen : ks.length = vs.length := by
        rw [hks.1, hvs.1, length_replicate]
      exact ⟨hlen, fun k hk => .inr (hks.2 k hk).1, fun v hv => slot_of_parsed (hvs.2 v hv)⟩
    · rw [fixedSizesFit, sizesBelow, Bool.and_eq_true] at ht
      rw [Value.Encodable, Value.allEncodable_iff, Value.allEncodable_iff, hks.1,
        length_replicate]
      exact ⟨hcnt, fun k hk => (hks.2 k hk).1.isNull_eq, fun k hk => (hks.2 k hk).2 ht.1,
        fun v hv => (slotOk_of_parsed (hvs.2 v hv) ht.2).2⟩
  | union _ fields codes ih =>
    refine yields_after fun code => ?_
    cases hk : childId codes code with
    | none => exact yields_fail _
    | some k =>
      simp only [parsers_eq_map, getElem?_map]
      cases hf : fields[k]? with
      | none => exact yields_fail _
      | some f =>
        have hmem := mem_of_getElem? hf
        refine (ih f hmem).bind fun v hv => yields_pure ⟨?_, fun ht => ?_⟩
        · rw [HasType]
          exact ⟨k, hk, HasType f.type, by rw [hasTypes_eq_map, getElem?_map, hf]; rfl, hv.1⟩
        · rw [fixedSizesFit, sizesBelow, fieldsSizesBelow_iff] at ht
          exact hv.2 (ht f hmem)
  | dictionary _ t _ ih =>
    refine Yields.mono (P := Parsed t) ih fun v hv => ⟨?_, hv.2⟩
    rw [HasType]
    exact hv.1
  | unsupported _ => exact yields_fail _

theorem yields_parse (t : DataType) : Yields (parse t) (HasType t) :=
  (yields_parsed t).mono fun _ hv => hv.1

/-- A row of the grammar, slot by slot. -/
theorem parseRow_parsed (h : parseRow schema buf = some row) :
    Forall₂ (fun f v => Slot (Parsed f.type) v) schema row :=
  yields_fields (fun f _ => yields_parsed f.type) buf row [] (parseRow_eq_some.mp h)

theorem slotOk_of_parseRow
    (hfit : ∀ f ∈ schema, fixedSizesFit f.type = true) (h : parseRow schema buf = some row) :
    Forall₂ (fun f v => SlotOk f.type v) schema row :=
  forall₂_imp_mem (parseRow_parsed h) fun f hf _ hv => slotOk_of_parsed hv (hfit f hf)

/-! ## `DecodeRow` reads the grammar -/

theorem readMembers_eq : ∀ ws, readMembers ws = readBytes ws.sum
  | [] => by
    funext bs
    simp [readMembers, readBytes, take]
  | w :: ws => by
    have ih := readMembers_eq ws
    rw [readMembers, ih, List.sum_cons]
    have h := take_bind_take (e := underrun) (m := w) (n := ws.sum)
      (f := fun bs => (pure bs : Read Bytes))
    simp only [readBytes]
    rw [h]
    funext bs
    rw [bind_apply]
    split <;> simp_all

theorem same_readU32 : Same readU32 parseU32 :=
  same_take.bind fun _ => same_pure

theorem same_readByte : Same readByte parseByte :=
  same_take.bind fun _ => same_pure

theorem parseSlots_length {xs : List (Parse Value)} {bs rest : Bytes} {vs : List Value}
    (h : parseSlots xs bs = .ok (vs, rest)) : bitfieldBytes xs.length ≤ bs.length := by
  obtain ⟨_, _, htake, -⟩ := bind_eq_ok.mp h
  obtain ⟨hlen, rfl⟩ := take_eq_ok.mp htake
  rw [List.length_append, hlen]
  exact Nat.le_add_right _ _

/-! ### What the builders say -/

/-- The slot of a builder of the type takes the value. -/
def BuildsSlot (A : Api) (t : DataType) (p : Value → Prop) (v : Value) : Prop :=
  if v.isNull then A.appendNull t = none else p v ∧ A.appendScalar t v = none

mutual

/-- Every builder call on the way to the value succeeds. List elements go through a builder,
and so do a map's keys and values; the fields of a struct do not. -/
def Builds (A : Api) : DataType → Value → Prop
  | .struct fields, .struct vs =>
    List.Forall₂ (fun p v => v.isNull = false → p v) (fieldsBuild A fields) vs
  | .list _ ⟨_, t, _⟩, .list vs =>
    A.makeBuilder t.element = none ∧ ∀ v ∈ vs, BuildsSlot A t.element (Builds A t) v
  | .fixedSizeList ⟨_, t, _⟩ _, .list vs =>
    A.makeBuilder t.element = none ∧ ∀ v ∈ vs, BuildsSlot A t.element (Builds A t) v
  | .map ⟨_, kt, _⟩ ⟨_, vt, _⟩ _, .map ks vs =>
    (A.makeBuilder kt = none ∧ ∀ k ∈ ks, BuildsSlot A kt (Builds A kt) k) ∧
      A.makeBuilder vt = none ∧ ∀ v ∈ vs, BuildsSlot A vt (Builds A vt) v
  | .union _ fields codes, .union code v => ∀ k, childId codes code = some k →
    ∀ p, (fieldsBuild A fields)[k]? = some p → p v
  | _, _ => True

/-- The same for a value of each field's type. -/
def fieldsBuild (A : Api) : List Field → List (Value → Prop)
  | [] => []
  | ⟨_, t, _⟩ :: fs => Builds A t :: fieldsBuild A fs

end

theorem fieldsBuild_eq_map (A : Api) : ∀ fields, fieldsBuild A fields =
    fields.map fun f => Builds A f.type
  | [] => rfl
  | ⟨_, t, _⟩ :: fs => by rw [fieldsBuild, fieldsBuild_eq_map A fs]; rfl

/-- A union value takes what its active child takes. -/
theorem builds_union {A : Api} {mode : UnionMode} {fields : List Field} {codes : List UInt8}
    {code : UInt8} {k : Nat} {f : Field} (hk : childId codes code = some k)
    (hf : fields[k]? = some f) :
    Builds A (.union mode fields codes) (.union code v) ↔ Builds A f.type v := by
  simp only [Builds, hk, Option.some.injEq, forall_eq', fieldsBuild_eq_map, getElem?_map, hf,
    Option.map_some]

section

variable {A : Api} {t : DataType}

/-- A builder call in front of a reader. -/
theorem keeps_call {β : Type} {x : Read β} {y : Parse β} {P : β → Prop} (text : String)
    (st : Option String) (h : Keeps x y P) :
    Keeps (lift (okOrThrow text st) >>= fun _ => x) y fun v => st = none ∧ P v := by
  intro bs v rest
  cases st with
  | none =>
    rw [okOrThrow, lift_ok, bind_of_ok (pure_apply () bs), h bs v rest]
    simp
  | some st =>
    rw [okOrThrow, lift_error, bind_of_error (fail_apply _ bs)]
    simp

/-- A builder call behind a reader. -/
theorem keeps_append {y : Parse Value} {P : Value → Prop} (text : String)
    (st : Value → Option String) (h : Keeps x y P) :
    Keeps (x >>= fun v => lift (okOrThrow text (st v)) >>= fun _ => pure v) y
      fun v => P v ∧ st v = none := by
  intro bs v rest
  rw [bind_eq_ok, ← and_assoc, ← h bs v rest]
  constructor
  · rintro ⟨v', mid, hx, hcall⟩
    obtain ⟨hpure, hst, -⟩ := (keeps_call text (st v') same_pure.keeps mid v rest).mp hcall
    obtain ⟨rfl, rfl⟩ := pure_eq_ok.mp hpure
    exact ⟨hx, hst⟩
  · rintro ⟨hx, hst⟩
    refine ⟨v, rest, hx, ?_⟩
    rw [hst]
    rfl

/-- A slot that goes through a builder is a slot the builder takes. -/
theorem keeps_appendSlot {b : DataType} (h : Keeps x (parse t) (Builds A t))
    (nullText scalarText : String) (flag : Bool) :
    Keeps (appendSlot A b x nullText scalarText flag) (slot .null (parse t) flag)
      (BuildsSlot A b (Builds A t)) := by
  cases flag with
  | true =>
    rw [appendSlot, if_pos rfl]
    refine (keeps_call nullText _ same_pure.keeps).congr (yields_pure ?_)
    rw [and_true]
    exact Iff.rfl
  | false =>
    refine (keeps_append scalarText (A.appendScalar b) h).congr ?_
    refine (yields_parse t).mono fun v hv => ?_
    rw [BuildsSlot, if_neg (by simp [hv.isNull_eq])]

/-- The slots behind a bitfield, each through a builder. -/
theorem keeps_slotRun {b : DataType} (h : Keeps x (parse t) (Builds A t))
    (nullText scalarText : String) (bitfield : Bytes) (count : Nat) :
    Keeps (runAll ((nullFlags bitfield count).map (appendSlot A b x nullText scalarText)))
      (runAll (zipWith (slot .null) (replicate count (parse t))
        (nullFlags bitfield count))) fun vs => ∀ v ∈ vs, BuildsSlot A b (Builds A t) v := by
  rw [zipWith_replicate_left (nullFlags_length bitfield count)]
  exact keeps_runAll fun flag _ => keeps_appendSlot h _ _ flag

/-- The slots of a struct or a row. None of them goes through a builder. -/
theorem keeps_slots : ∀ {fields : List Field} {flags : List Bool},
    (∀ f ∈ fields, Keeps (typeDecoder A f.type).value (parse f.type) (Builds A f.type)) →
    flags.length = fields.length →
    Keeps (runAll (zipWith (slot .null) (decoders A fields) flags))
      (runAll (zipWith (slot .null) (parsers fields) flags)) fun vs =>
        Forall₂ (fun p v => v.isNull = false → p v) (fieldsBuild A fields) vs
  | [], [], _, _ => same_pure.keeps.congr (yields_pure ⟨fun _ => .nil, fun _ => trivial⟩)
  | ⟨name, t, nullable⟩ :: fields, flag :: flags, h, hlen => by
    have hrest := keeps_slots (fun f hf => h f (List.mem_cons_of_mem _ hf)) (Nat.succ.inj hlen)
    have hhead : Keeps (slot .null (typeDecoder A t).value flag) (slot .null (parse t) flag)
        fun v => v.isNull = false → Builds A t v := by
      cases flag with
      | true => exact same_pure.keeps.congr (yields_pure (by simp [Value.isNull]))
      | false =>
        have hkeep := h ⟨name, t, nullable⟩ List.mem_cons_self
        refine hkeep.congr ((yields_parse t).mono fun v hv => ?_)
        exact ⟨fun hb _ => hb, fun hb => hb hv.isNull_eq⟩
    refine hhead.bind (fun v => hrest.bind_pure (R := fun vs => Forall₂
      (fun p v => v.isNull = false → p v) (fieldsBuild A fields) vs.tail) fun vs => Iff.rfl)
      fun v => yields_after fun vs => yields_pure ?_
    rw [fieldsBuild, List.forall₂_cons]
    exact Iff.rfl

theorem keeps_fields {fields : List Field}
    (h : ∀ f ∈ fields, Keeps (typeDecoder A f.type).value (parse f.type) (Builds A f.type)) :
    Keeps (decodeFields (decoders A fields)) (parseSlots (parsers fields)) fun vs =>
      Forall₂ (fun p v => v.isNull = false → p v) (fieldsBuild A fields) vs := by
  have hlen : (decoders A fields).length = (parsers fields).length := by
    simp [decoders_eq_map, parsers_eq_map]
  unfold decodeFields parseSlots
  rw [hlen]
  refine same_take.bind_keeps fun bitfield => keeps_slots h ?_
  simp [parsers_eq_map]

theorem slotBytes_append_zero {a b : Bytes} (h : a.length = w) :
    ArrayData.slotBytes (a ++ b) w 0 = a := by
  rw [ArrayData.slotBytes, Nat.zero_mul, List.drop_zero, List.take_left' h]

theorem slotBytes_append_succ {a b : Bytes} (h : a.length = w) (j : Nat) :
    ArrayData.slotBytes (a ++ b) w (j + 1) = ArrayData.slotBytes b w j := by
  rw [ArrayData.slotBytes, Nat.succ_mul, Nat.add_comm, ← List.drop_drop, List.drop_left' h]
  rfl

/-- **A bulk run is its elements.** One take of all the bytes, cut up afterwards, reads what
taking them one by one reads. -/
theorem same_bulk {ε : Type} {e : ε} {g : Bytes → Value} : ∀ (count : Nat),
    Same (take e (count * w) >>= fun bytes => (pure ((List.range count).map fun j =>
        g (ArrayData.slotBytes bytes w j)) : Reader ε (List Value)))
      (runAll (replicate count (take () w >>= fun bs => (pure (g bs) : Parse Value))))
  | 0 => by
    intro bs p
    rw [Nat.zero_mul]
    simp [take, runAll, bind_apply]
  | count + 1 => by
    rw [Nat.succ_mul, Nat.add_comm, ← take_bind_take, List.replicate_succ, runAll, bind_bind]
    refine same_take.bind_yields yields_take fun a ha => ?_
    have hcut : (fun b => (pure ((List.range (count + 1)).map fun j =>
        g (ArrayData.slotBytes (a ++ b) w j)) : Reader ε (List Value))) =
        fun b => pure ((List.range count).map fun j => g (ArrayData.slotBytes b w j)) >>=
          fun vs => pure (g a :: vs) := by
      funext b
      rw [List.range_succ_eq_map, List.map_cons, List.map_map, slotBytes_append_zero ha]
      simp only [Function.comp_def, Nat.succ_eq_add_one, slotBytes_append_succ ha]
      rfl
    rw [hcut, ← bind_bind]
    exact (same_bulk count).bind fun vs => same_pure

/-- The flags of a bitfield without a set bit. -/
theorem nullFlags_of_allValid {bitfield : Bytes} (h : allValid bitfield = true) (count : Nat) :
    nullFlags bitfield count = replicate count false := by
  refine List.eq_replicate_iff.mpr ⟨nullFlags_length _ _, ?_⟩
  intro _ hflag
  obtain ⟨i, -, rfl⟩ := List.mem_map.mp hflag
  exact all_zero_iff.mp h i

/-- The parser of a fixed-width type takes its width and makes the value of the run. -/
theorem parse_fixedWidth (h : 0 < fixedWidth t) :
    parse t = take () (fixedWidth t) >>= fun bs => (pure (runValue t bs) : Parse Value) := by
  cases t with
  | bool =>
    simp only [parse, parseByte]
    rw [bind_bind]
    rfl
  | fixed t => rw [parse]; rfl
  | _ => cases h

/-- Under a dictionary the grammar is that of the values. -/
theorem parse_element (t : DataType) : parse t.element = parse t := by
  induction t with
  | dictionary _ t _ ih => rw [parse, DataType.element, ih]
  | _ => rfl

theorem typeDecoder_elemType (A : Api) (t : DataType) : (typeDecoder A t).elemType = t.element := by
  induction t with
  | dictionary _ t _ ih => rw [typeDecoder, DataType.element, ih]
  | _ => rfl

/-- A value of a fixed width goes into a builder of its type whichever way it is put there. -/
theorem buildsSlot_fixedWidth (hA : A.Lawful) (hw : 0 < fixedWidth t.element)
    (hv : HasType t.element v) : BuildsSlot A t.element (Builds A t) v := by
  have hsupported : t.element.supported = true := by
    cases ht : t.element <;> simp_all [fixedWidth, DataType.supported]
  have hbui : Builds A t v := by
    cases t <;> trivial
  rw [BuildsSlot, if_neg (by simp [hv.isNull_eq])]
  exact ⟨hbui, hA.appendScalar_ok _ v hsupported hv⟩

/-- The body of a list, whichever way it is read. -/
theorem keeps_listElements (hA : A.Lawful)
    (h : Keeps (typeDecoder A t).elem (parse t) (Builds A t)) (count : Nat) :
    Keeps (decodeListElements A (typeDecoder A t) count)
      (parseSlots (replicate count (parse t))) fun vs =>
        A.makeBuilder t.element = none ∧ ∀ v ∈ vs, BuildsSlot A t.element (Builds A t) v := by
  unfold decodeListElements parseSlots
  rw [length_replicate, typeDecoder_elemType]
  refine same_take.bind_keeps fun bitfield => keeps_call _ _ ?_
  dsimp only
  split
  · next hbulk =>
    simp only [Bool.and_eq_true, decide_eq_true_eq] at hbulk
    obtain ⟨⟨-, hwid⟩, hval⟩ := hbulk
    have hrun : zipWith (slot Value.null) (replicate count (parse t))
        (nullFlags bitfield count) = replicate count
          (take () (fixedWidth t.element) >>= fun bs => pure (runValue t.element bs)) := by
      rw [zipWith_replicate_left (nullFlags_length bitfield count),
        nullFlags_of_allValid hval, map_replicate, ← parse_fixedWidth hwid, parse_element]
      rfl
    rw [hrun]
    refine Keeps.of_check ((same_bulk count).keeps.congr ?_) fun bs vs rest hp => ?_
    · rw [← parse_fixedWidth hwid]
      have hrun : Yields (runAll (replicate count (parse t.element))) fun vs =>
          vs.length = (replicate count (parse t.element)).length ∧
            ∀ v ∈ vs, HasType t.element v :=
        yields_runAll_all fun x hx => List.eq_of_mem_replicate hx ▸ yields_parse t.element
      exact hrun.mono fun vs hvs =>
        iff_of_true trivial fun v hv => buildsSlot_fixedWidth hA hwid (hvs.2 v hv)
    · -- the run was read, so it was there
      have hread := (same_bulk (e := underrun) count bs (vs, rest)).mpr hp
      obtain ⟨_, _, htake, -⟩ := bind_eq_ok.mp hread
      obtain ⟨hlen, rfl⟩ := take_eq_ok.mp htake
      rw [decide_eq_true_eq, Nat.le_div_iff_mul_le hwid, List.length_append, hlen]
      exact Nat.le_add_right _ _
  · exact keeps_slotRun h _ _ bitfield count

/-- A map's keys. -/
theorem keeps_keys (h : Keeps (typeDecoder A t).value (parse t) (Builds A t)) (count : Nat) :
    Keeps (runAll (replicate count
        (appendSlot A t (typeDecoder A t).value "" "Codec: key append failed" false)))
      (runAll (replicate count (parse t))) fun ks =>
        ∀ k ∈ ks, BuildsSlot A t (Builds A t) k := by
  have hkey : ∀ flag ∈ replicate count false,
      Keeps (appendSlot A t (typeDecoder A t).value "" "Codec: key append failed" flag)
        (slot .null (parse t) flag) (BuildsSlot A t (Builds A t)) :=
    fun flag _ => keeps_appendSlot h _ _ flag
  have hrun := keeps_runAll hkey
  rwa [map_replicate, map_replicate] at hrun

/-- A map's values, behind their bitfield. -/
theorem keeps_items (h : Keeps (typeDecoder A t).value (parse t) (Builds A t)) (count : Nat) :
    Keeps (do
        let bitfield ← readBytes (bitfieldBytes count)
        lift (okOrThrow "Codec: map value MakeBuilder failed" (A.makeBuilder t))
        runAll ((nullFlags bitfield count).map (appendSlot A t (typeDecoder A t).value
          "Codec: value AppendNull failed" "Codec: value append failed")))
      (parseSlots (replicate count (parse t))) fun vs =>
        A.makeBuilder t = none ∧ ∀ v ∈ vs, BuildsSlot A t (Builds A t) v := by
  unfold parseSlots
  rw [length_replicate]
  exact same_take.bind_keeps fun bitfield =>
    keeps_call _ _ (keeps_slotRun h _ _ bitfield count)

theorem keeps_mapEntries {key item : Field} {sorted : Bool}
    (hk : Keeps (typeDecoder A key.type).value (parse key.type) (Builds A key.type))
    (hv : Keeps (typeDecoder A item.type).value (parse item.type) (Builds A item.type))
    (count : Nat) :
    Keeps (decodeMapEntries A key.type item.type (typeDecoder A key.type).value
        (typeDecoder A item.type).value count)
      (do
        let ks ← runAll (replicate count (parse key.type))
        let vs ← parseSlots (replicate count (parse item.type))
        pure (.map ks vs))
      (Builds A (.map key item sorted)) := by
  have hkeys := keeps_call "Codec: map key MakeBuilder failed" (A.makeBuilder key.type)
    (keeps_keys hk count)
  have hboth := hkeys.bind_pure₂ (keeps_items hv count) (f := Value.map)
    (R := Builds A (.map key item sorted)) fun ks vs => Iff.rfl
  unfold decodeMapEntries
  simpa only [bind_bind] using hboth

/-- **`DecodePositionalValue` reads the grammar**, where the builders take what it read. -/
theorem typeDecoder_keeps (hA : A.Lawful) (ht : t.carried = true) :
    Keeps (typeDecoder A t).value (parse t) (Builds A t) ∧
      Keeps (typeDecoder A t).elem (parse t) (Builds A t) := by
  -- outside dictionaries the element decoder is the value decoder
  have both : ∀ {x : Read Value} {y : Parse Value} {P : Value → Prop}, Keeps x y P →
      Keeps x y P ∧ Keeps x y P := fun h => ⟨h, h⟩
  induction ht using DataType.carried_rec with
  | bool => exact both ((same_readByte.bind fun b => same_pure).keeps)
  | fixed t =>
    refine both (Same.keeps ?_)
    show Same (readMembers t.members >>= _) _
    rw [readMembers_eq]
    exact same_take.bind fun bs => same_pure
  | var t =>
    exact both (same_readU32.bind fun len =>
      same_take.bind fun data => same_pure).keeps
  | struct fields _ ih =>
    exact both ((keeps_fields fun f hf => (ih f hf).1).bind_pure fun vs => Iff.rfl)
  | list _ item _ ih =>
    have hbody := keeps_listElements (t := item.type) hA ih.2
    refine both (same_readU32.bind_keeps fun count => ?_)
    refine Keeps.of_check ((hbody count).bind_pure fun vs => Iff.rfl) fun bs v rest hp => ?_
    obtain ⟨vs, _, hsl, -⟩ := bind_eq_ok.mp hp
    have hlen := parseSlots_length hsl
    rw [length_replicate] at hlen
    exact decide_eq_true hlen
  | fixedSizeList item size _ ih =>
    exact both ((keeps_listElements (t := item.type) hA ih.2 size).bind_pure fun vs => Iff.rfl)
  | map _ item _ _ ihk ihv =>
    refine both (same_readU32.bind_keeps fun count => same_remaining.bind_keeps fun left =>
      same_require.bind_keeps fun _ => ?_)
    exact keeps_mapEntries ihk.1 ihv.1 count
  | union mode fields codes _ ih =>
    refine both (same_readByte.bind_keeps fun code => ?_)
    cases hk : childId codes code with
    | none => cases mode <;> exact same_fail.keeps.congr (yields_fail _)
    | some k =>
      simp only [decoders_eq_map, parsers_eq_map, getElem?_map]
      cases hf : fields[k]? with
      | none => exact same_fail.keeps.congr (yields_fail _)
      | some f =>
        have hmem := mem_of_getElem? hf
        refine (ih f hmem).1.bind_pure fun v => ?_
        rw [builds_union hk hf]
  | dictionary index t ordered ht ih =>
    obtain ⟨hvalue, helem⟩ := ih
    have hsc : (typeDecoder A (.dictionary index t ordered)).value = (typeDecoder A t).value := by
      cases t <;> first | rfl | exact absurd ht (by simp [DataType.dictionaryValue])
    have hbui : Builds A (.dictionary index t ordered) = Builds A t := by
      funext v
      cases t <;> cases v <;> first | rfl | exact absurd ht (by simp [DataType.dictionaryValue])
    rw [hsc, hbui, parse]
    exact ⟨hvalue, helem⟩

/-- Without dictionaries every builder takes what was read. -/
theorem builds_of_supported (hA : A.Lawful) (ht : t.supported = true) (hv : HasType t v) :
    Builds A t v := by
  have elem : ∀ {t : DataType}, t.supported = true → t.element = t := by
    intro t ht
    cases t <;> first | rfl | cases ht
  have make : ∀ {t : DataType}, t.supported = true → A.makeBuilder t.element = none :=
    fun {t} ht => (elem ht).symm ▸ hA.makeBuilder_ok t ht
  have slot : ∀ {t : DataType}, t.supported = true → (∀ {v : Value}, HasType t v → Builds A t v) →
      ∀ v, Slot (HasType t) v → BuildsSlot A t.element (Builds A t) v := by
    intro t ht ih v hv
    rw [elem ht]
    rcases hv with rfl | hv
    · exact hA.appendNull_ok t ht
    · rw [BuildsSlot, if_neg (by simp [hv.isNull_eq])]
      exact ⟨ih hv, hA.appendScalar_ok t v ht hv⟩
  induction ht using DataType.supported_rec generalizing v with
  | bool | fixed _ | var _ => trivial
  | struct fields _ ih =>
    cases v with
    | struct vs =>
      rw [HasType, hasTypes_eq_map, forall₂_map_left_iff] at hv
      rw [Builds, fieldsBuild_eq_map, forall₂_map_left_iff]
      refine forall₂_imp_mem hv fun f hf v hslot hn => ?_
      rcases hslot with rfl | hty
      · cases hn
      · exact ih f hf hty
    | _ => cases hv
  | list _ item ht ih =>
    cases v with
    | list vs => exact ⟨make ht, fun v hmem => slot (t := item.type) ht ih v (hv v hmem)⟩
    | _ => cases hv
  | fixedSizeList item _ ht ih =>
    cases v with
    | list vs => exact ⟨make ht, fun v hmem => slot (t := item.type) ht ih v (hv.2 v hmem)⟩
    | _ => cases hv
  | map _ item _ ht ihk ihv =>
    cases v with
    | map _ vs =>
      obtain ⟨-, hks, hvs⟩ := hv
      obtain ⟨htk, htv⟩ := supported_map.mp ht
      have hk := fun k hmem => slot htk ihk k (hks k hmem)
      have hi := fun v hmem => slot htv ihv v (hvs v hmem)
      rw [elem htk] at hk
      rw [elem htv] at hi
      exact ⟨⟨hA.makeBuilder_ok _ htk, hk⟩, hA.makeBuilder_ok _ htv, hi⟩
    | _ => cases hv
  | union _ fields _ ht ih =>
    cases v with
    | union _ v =>
      obtain ⟨k, f, hk, hf, hv⟩ := hasType_union hv
      rw [builds_union hk hf]
      exact ih f (mem_of_getElem? hf) hv
    | _ => cases hv

/-! ### Rows -/

/-- Every builder call on the way to the row succeeds. -/
def RowBuilds (A : Api) (schema : Schema) (row : Row) : Prop :=
  List.Forall₂ (fun p v => v.isNull = false → p v) (fieldsBuild A schema) row

/-- **`Codec::DecodeRow` accepts exactly the rows of the grammar** that its builders take. -/
theorem decodeRow_keeps (hA : A.Lawful) (ht : ∀ f ∈ schema, f.type.carried = true) :
    decodeRow A schema buf = .ok row ↔ parseRow schema buf = some row ∧ RowBuilds A schema row := by
  have hfs := keeps_fields fun f hf => (typeDecoder_keeps hA (ht f hf)).1
  rw [parseRow_eq_some, RowBuilds, ← hfs buf row []]
  exact decodeRow_eq_ok

/-- **Without dictionaries `Codec::DecodeRow` accepts exactly the rows of the grammar.** -/
theorem decodeRow_same (hA : A.Lawful) (ht : ∀ f ∈ schema, f.type.supported = true) :
    decodeRow A schema buf = .ok row ↔ parseRow schema buf = some row := by
  rw [decodeRow_keeps hA fun f hf => DataType.carried_of_supported (ht f hf)]
  refine and_iff_left_of_imp fun h => ?_
  rw [RowBuilds, fieldsBuild_eq_map, forall₂_map_left_iff]
  refine forall₂_imp_mem (parseRow_parsed h) fun f hf v hslot hn => ?_
  rcases hslot with rfl | hty
  · cases hn
  · exact builds_of_supported hA (ht f hf) hty.1

end

end Fletcher.Bridge
