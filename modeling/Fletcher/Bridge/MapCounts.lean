import Fletcher.Bridge.Layout

/-!
# When what was written can be read back

A reader of the grammar refuses a map that announces more entries than there are bytes left
in the buffer. For most key types this never refuses a row that was written: a key takes a
byte at least. A key of no bytes at all is the exception, and then it is what comes *behind*
the map in the row that decides.

`MapsFit t v after` says that the check passes for every map inside the value, when `after`
bytes come behind the value in its row. It is exactly what `wire` has to have to be read back
(`parse_wire`, `parseRow_wireRow`).
-/

namespace Fletcher.Bridge

open Lib Arrow Fletcher.Core Reader List

variable {t : DataType} {vs : List Value}

/-- How a value of some type is written, and what it needs behind it. -/
structure Written where
  enc : Value → Bytes
  fits : Value → Nat → Prop

/-- The payloads of a run of slots. -/
def payloadBytes (ws : List Written) (vs : List Value) : Bytes :=
  (List.zipWith (fun w v => slotOut w.enc v) ws vs).flatMap fun out => out.getD []

/-- What each slot of a run needs behind it. The slots that follow are behind it too. -/
def PayloadsFit : List Written → List Value → Nat → Prop
  | w :: ws, v :: vs, after =>
    (v.isNull = false → w.fits v ((payloadBytes ws vs).length + after)) ∧ PayloadsFit ws vs after
  | _, _, _ => True

mutual

/-- With `after` bytes behind the value, no map inside it has more entries than bytes behind
its count. -/
def MapsFit : DataType → Value → Nat → Prop
  | .struct fields, .struct vs, after => PayloadsFit (fieldsFit fields) vs after
  | .list _ ⟨_, t, _⟩, .list vs, after =>
    PayloadsFit (List.replicate vs.length ⟨wire t, MapsFit t⟩) vs after
  | .fixedSizeList ⟨_, t, _⟩ _, .list vs, after =>
    PayloadsFit (List.replicate vs.length ⟨wire t, MapsFit t⟩) vs after
  | .map ⟨_, kt, _⟩ ⟨_, vt, _⟩ _, .map ks vs, after =>
    let behind := (slots (vs.map (slotOut (wire vt)))).length + after
    ks.length ≤ (ks.flatMap (wire kt)).length + behind ∧
      PayloadsFit (List.replicate ks.length ⟨wire kt, MapsFit kt⟩) ks behind ∧
      PayloadsFit (List.replicate vs.length ⟨wire vt, MapsFit vt⟩) vs after
  | .union _ fields codes, .union code v, after => ∀ k, childId codes code = some k →
    ∀ w, (fieldsFit fields)[k]? = some w → w.fits v after
  | .dictionary _ t _, v, after => MapsFit t v after
  | _, _, _ => True

/-- The same for a value of each field's type. -/
def fieldsFit : List Field → List Written
  | [] => []
  | ⟨_, t, _⟩ :: fs => ⟨wire t, MapsFit t⟩ :: fieldsFit fs

end

/-- With the row ending where its last slot ends, every map in it passes the check. -/
def RowMapsFit (schema : Schema) (row : Row) : Prop := PayloadsFit (fieldsFit schema) row 0

theorem fieldsFit_eq_map : ∀ fields, fieldsFit fields =
    fields.map fun f => ⟨wire f.type, MapsFit f.type⟩
  | [] => rfl
  | ⟨_, t, _⟩ :: fs => by rw [fieldsFit, fieldsFit_eq_map fs]; rfl

/-- The maps of a union value are those of its active child. -/
theorem mapsFit_union {mode : UnionMode} {fields : List Field} {codes : List UInt8}
    {code : UInt8} {k after : Nat} {f : Field} {v : Value} (hk : childId codes code = some k)
    (hf : fields[k]? = some f) :
    MapsFit (.union mode fields codes) (.union code v) after ↔ MapsFit f.type v after := by
  simp only [MapsFit, hk, Option.some.injEq, forall_eq', fieldsFit_eq_map, getElem?_map, hf,
    Option.map_some]

theorem payloadBytes_fields (fields : List Field) (vs : List Value) :
    payloadBytes (fieldsFit fields) vs =
      (zipWith slotOut (wires fields) vs).flatMap fun out => out.getD [] := by
  rw [payloadBytes, fieldsFit_eq_map, wires_eq_map, zipWith_map_left, zipWith_map_left]

theorem fieldsFit_replicate (name : String) (t : DataType) (nullable : Bool) (n : Nat) :
    fieldsFit (replicate n ⟨name, t, nullable⟩) = replicate n ⟨wire t, MapsFit t⟩ := by
  rw [fieldsFit_eq_map, map_replicate]

theorem parsers_replicate (name : String) (t : DataType) (nullable : Bool) (n : Nat) :
    parsers (replicate n ⟨name, t, nullable⟩) = replicate n (parse t) := by
  rw [parsers_eq_map, map_replicate]

/-! ## Runs of slots -/

/-- What the recursion provides: a written value is read back, and nothing behind it touched,
exactly when its maps fit. -/
def ReadsBack (t : DataType) : Prop :=
  ∀ v, HasType t v → v.Encodable → ∀ rest mid : Bytes,
    parse t (wire t v ++ rest) = .ok (v, mid) ↔ mid = rest ∧ MapsFit t v rest.length

/-- A reader that reads its bytes whatever is behind them asks for nothing behind them. -/
theorem reads_iff {α : Type} {x : Parse α} {bs : Bytes} {a : α} (h : Reads x bs a)
    (rest mid : Bytes) : x (bs ++ rest) = .ok (a, mid) ↔ mid = rest ∧ True := by
  rw [h rest, and_true]
  constructor
  · intro heq
    cases heq
    rfl
  · rintro rfl
    rfl

theorem reads_parseU32 {n : Nat} (h : n < 2 ^ 32) : Reads parseU32 (leBytes 4 n) n := by
  have hread : Reads parseU32 (leBytes 4 n) (ofLe (leBytes 4 n)) :=
    (reads_take_of_length () (leBytes_length 4 n)).bind_pure
  rwa [ofLe_leBytes (Nat.lt_of_lt_of_eq h (by decide))] at hread

theorem reads_parseByte (c : UInt8) : Reads parseByte [c] c :=
  (reads_take () [c]).before (reads_pure c)

/-- One slot, under its own flag. -/
theorem slot_payload (h : ReadsBack t) {v : Value} (hv : SlotOk t v) (rest mid : Bytes) :
    slot .null (parse t) v.isNull ((slotOut (wire t) v).getD [] ++ rest) = .ok (v, mid) ↔
      mid = rest ∧ (v.isNull = false → MapsFit t v rest.length) := by
  rcases hv with ⟨rfl | hty, henc⟩
  · have hnull := reads_iff (reads_pure (ε := Unit) Value.null) rest mid
    simpa [slotOut, Value.isNull, slot] using hnull
  · have hn := hty.isNull_eq
    rw [slotOut_of_not_null hn, hn, slot, if_neg (by simp), Option.getD_some, h v hty henc rest mid]
    simp

/-- The slots behind a bitfield that says which of them are null. -/
theorem runAll_payloads : ∀ {fields : List Field} {vs : List Value},
    (∀ f ∈ fields, ReadsBack f.type) → Forall₂ (fun f v => SlotOk f.type v) fields vs →
    ∀ rest mid : Bytes,
    runAll (zipWith (slot .null) (parsers fields) (vs.map Value.isNull))
        (payloadBytes (fieldsFit fields) vs ++ rest) = .ok (vs, mid) ↔
      mid = rest ∧ PayloadsFit (fieldsFit fields) vs rest.length := by
  intro fields vs h hvs rest mid
  induction hvs with
  | nil => exact reads_iff (reads_pure []) rest mid
  | @cons f v fields vs hv _ ih =>
    obtain ⟨name, t, nullable⟩ := f
    replace ih := ih fun f hf => h f (mem_cons_of_mem _ hf)
    have hslot := slot_payload (h _ mem_cons_self) hv
      (payloadBytes (fieldsFit fields) vs ++ rest)
    have hby : payloadBytes (fieldsFit (⟨name, t, nullable⟩ :: fields)) (v :: vs) ++ rest =
        (slotOut (wire t) v).getD [] ++ (payloadBytes (fieldsFit fields) vs ++ rest) := by
      rw [fieldsFit, payloadBytes, zipWith_cons_cons, flatMap_cons, append_assoc]
      rfl
    rw [parsers, map_cons, zipWith_cons_cons, hby, runAll_eq_ok, fieldsFit, PayloadsFit]
    constructor
    · rintro ⟨a, mid', _, ha, has, heq⟩
      cases heq
      obtain ⟨rfl, hfit⟩ := (hslot mid').mp ha
      obtain ⟨rfl, hfits⟩ := ih.mp has
      rw [length_append] at hfit
      exact ⟨rfl, hfit, hfits⟩
    · rintro ⟨hmid, hfit, hfits⟩
      rw [← length_append] at hfit
      exact ⟨v, _, vs, (hslot _).mpr ⟨rfl, hfit⟩, ih.mpr ⟨hmid, hfits⟩, rfl⟩

/-- A run of slots with its bitfield. -/
theorem parseSlots_slots {fields : List Field} (h : ∀ f ∈ fields, ReadsBack f.type)
    (hv : Forall₂ (fun f v => SlotOk f.type v) fields vs) (rest mid : Bytes) :
    parseSlots (parsers fields) (slots (zipWith slotOut (wires fields) vs) ++ rest) =
        .ok (vs, mid) ↔
      mid = rest ∧ PayloadsFit (fieldsFit fields) vs rest.length := by
  have hlen := hv.length_eq
  have hcnt : (vs.map Value.isNull).length = (parsers fields).length := by
    rw [parsers_eq_map, length_map, length_map, hlen]
  rw [slots, slotOuts_isNone hlen, ← payloadBytes_fields, append_assoc, parseSlots,
    bind_of_ok (reads_packBits hcnt _), nullFlags_packBits hcnt]
  exact runAll_payloads h hv rest mid

/-- A list's slots. -/
theorem parseSlots_slots_all (h : ReadsBack t) (hv : ∀ v ∈ vs, SlotOk t v) (rest mid : Bytes) :
    parseSlots (replicate vs.length (parse t)) (slots (vs.map (slotOut (wire t))) ++ rest) =
        .ok (vs, mid) ↔
      mid = rest ∧ PayloadsFit (replicate vs.length ⟨wire t, MapsFit t⟩) vs rest.length := by
  have hall : ∀ f ∈ replicate vs.length (⟨"", t, true⟩ : Field), ReadsBack f.type :=
    fun f hf => eq_of_mem_replicate hf ▸ h
  have hrun := parseSlots_slots hall (forall₂_replicate_left hv) rest mid
  rwa [parsers_replicate, wires_replicate, fieldsFit_replicate] at hrun

/-- A map's keys: a run without a bitfield. -/
theorem runAll_keys (h : ReadsBack t) {ks : List Value}
    (hk : ∀ k ∈ ks, SlotOk t k) (hn : ∀ k ∈ ks, k.isNull = false) (rest mid : Bytes) :
    runAll (replicate ks.length (parse t)) (ks.flatMap (wire t) ++ rest) = .ok (ks, mid) ↔
      mid = rest ∧ PayloadsFit (replicate ks.length ⟨wire t, MapsFit t⟩) ks rest.length := by
  have hall : ∀ f ∈ replicate ks.length (⟨"", t, true⟩ : Field), ReadsBack f.type :=
    fun f hf => eq_of_mem_replicate hf ▸ h
  have hrun := runAll_payloads hall (forall₂_replicate_left hk) rest mid
  have hflg : ks.map Value.isNull = replicate (replicate ks.length (parse t)).length
      false := by
    rw [flags_present hn, length_replicate]
  rwa [payloadBytes_fields, wires_replicate, flatMap_map, payloads_present hn,
    parsers_replicate, hflg, zipWith_slot_false, fieldsFit_replicate] at hrun

/-! ## Values -/

/-- A result that is only wrapped up is read back when its parts are. -/
theorem bind_pure_iff {α β : Type} {x : Parse α} {f : α → β} (hf : Function.Injective f)
    {bs mid : Bytes} {a : α} :
    (x >>= fun a => pure (f a)) bs = .ok (f a, mid) ↔ x bs = .ok (a, mid) := by
  rw [bind_eq_ok]
  constructor
  · rintro ⟨_, _, hx, hp⟩
    obtain ⟨heq, rfl⟩ := pure_eq_ok.mp hp
    rwa [hf heq] at hx
  · intro hx
    exact ⟨a, mid, hx, rfl⟩

theorem mapEntries_wire {kt vt : DataType} (hk : ReadsBack kt) (hv : ReadsBack vt)
    {ks : List Value} (hlen : ks.length = vs.length) (hkok : ∀ k ∈ ks, SlotOk kt k)
    (hkn : ∀ k ∈ ks, k.isNull = false) (hvok : ∀ v ∈ vs, SlotOk vt v) (rest mid : Bytes) :
    (do
      let ks' ← runAll (replicate ks.length (parse kt))
      let vs' ← parseSlots (replicate ks.length (parse vt))
      pure (Value.map ks' vs') : Parse Value)
      (ks.flatMap (wire kt) ++ (slots (vs.map (slotOut (wire vt))) ++ rest)) =
        .ok (.map ks vs, mid) ↔
      mid = rest ∧ PayloadsFit (replicate ks.length ⟨wire kt, MapsFit kt⟩) ks
          ((slots (vs.map (slotOut (wire vt)))).length + rest.length) ∧
        PayloadsFit (replicate vs.length ⟨wire vt, MapsFit vt⟩) vs rest.length := by
  have hkeys := runAll_keys hk hkok hkn (slots (vs.map (slotOut (wire vt))) ++ rest)
  have hits := parseSlots_slots_all hv hvok rest
  rw [length_append] at hkeys
  rw [← hlen] at hits
  rw [← hlen, bind_eq_ok]
  constructor
  · rintro ⟨ks', mid₁, hks, h⟩
    obtain ⟨vs', hvs, heq⟩ := bind_pure_eq_ok.mp h
    cases heq
    obtain ⟨rfl, hkfit⟩ := (hkeys mid₁).mp hks
    obtain ⟨rfl, hvfit⟩ := (hits mid).mp hvs
    exact ⟨rfl, hkfit, hvfit⟩
  · rintro ⟨rfl, hkfit, hvfit⟩
    exact ⟨ks, _, (hkeys _).mpr ⟨rfl, hkfit⟩,
      bind_eq_ok.mpr ⟨vs, mid, (hits mid).mpr ⟨rfl, hvfit⟩, rfl⟩⟩

/-- **A written value is read back exactly when its maps fit.** -/
theorem parse_wire (t : DataType) (ht : t.carried = true) : ReadsBack t := by
  intro v hty henc
  revert ht
  refine carried_induction ?bool ?fixed ?var ?struct ?list ?fixedSizeList ?map ?union ?dictionary
    t v hty henc
  case bool =>
    intro b _ rest mid
    have hbyte :=
      (reads_parseByte (if b then 1 else 0)).bind_pure (f := fun c => Value.bool (c != 0))
    have hvalue : (Value.bool ((if b then (1 : UInt8) else 0) != 0)) = .bool b := by
      cases b <;> rfl
    rw [hvalue] at hbyte
    exact reads_iff hbyte rest mid
  case fixed =>
    intro x _ rest mid
    have hread := (reads_take_of_length () x.size_eq).bind_pure
      (f := fun bs => Value.fixed (FixedValue.ofBytes x.type bs))
    rw [FixedValue.ofBytes_self] at hread
    exact reads_iff hread rest mid
  case var =>
    intro t data hlen _ rest mid
    have hread : Reads (parse (.var t)) (leBytes 4 data.length ++ data) (.binary t data) :=
      (reads_parseU32 hlen).bind (reads_take () data).bind_pure
    exact reads_iff hread rest mid
  case struct =>
    intro fields vs ih hvs ht rest mid
    rw [DataType.carried, fieldsCarried_iff] at ht
    rw [parse, wire, bind_pure_iff fun _ _ => Value.struct.inj]
    exact parseSlots_slots (fun f hf v hv he => ih f hf v hv he (ht f hf)) hvs rest mid
  case list =>
    intro _ item vs ih hcnt hvs ht rest mid
    rw [parse, wire, append_assoc, bind_of_ok (reads_parseU32 hcnt _),
      bind_pure_iff fun _ _ => Value.list.inj]
    exact parseSlots_slots_all (fun v hv he => ih v hv he ht) hvs rest mid
  case fixedSizeList =>
    intro item vs ih hvs ht rest mid
    rw [parse, wire, bind_pure_iff fun _ _ => Value.list.inj]
    exact parseSlots_slots_all (fun v hv he => ih v hv he ht) hvs rest mid
  case map =>
    intro key item _ ks vs ihk ihv hlen hcnt hks hvs ht rest mid
    rw [DataType.carried, Bool.and_eq_true] at ht
    have hents := mapEntries_wire (fun v hv he => ihk v hv he ht.1)
      (fun v hv he => ihv v hv he ht.2) hlen (fun k hk => ⟨.inr (hks k hk).1, (hks k hk).2⟩)
      (fun k hk => (hks k hk).1.isNull_eq) hvs rest mid
    rw [parse, wire, append_assoc, append_assoc, bind_of_ok (reads_parseU32 hcnt _),
      bind_of_ok remaining_apply, MapsFit]
    -- the one place where the count is held against what is left
    have hleft : (ks.flatMap (wire key.type) ++ (slots (vs.map (slotOut (wire item.type))) ++
        rest)).length = (ks.flatMap (wire key.type)).length +
          ((slots (vs.map (slotOut (wire item.type)))).length + rest.length) := by
      rw [length_append, length_append]
    rw [hleft]
    by_cases hfits : ks.length ≤ (ks.flatMap (wire key.type)).length +
        ((slots (vs.map (slotOut (wire item.type)))).length + rest.length)
    · rw [decide_eq_true hfits, require_true, bind_of_ok (pure_apply () _), hents]
      exact and_congr_right fun _ => (and_iff_right hfits).symm
    · rw [decide_eq_false hfits, require_false, bind_of_error (fail_apply () _)]
      exact iff_of_false (fun h => by cases h) fun h => hfits h.2.1
  case union =>
    intro mode fields codes code k f v ih hmem hk hf hv he ht rest mid
    rw [DataType.carried, Bool.and_eq_true, fieldsCarried_iff] at ht
    have hch := ih v hv he (ht.2 f hmem) rest mid
    rw [mapsFit_union hk hf, wire_union hk hf, ← hch, parse, cons_append,
      ← singleton_append, bind_of_ok (reads_parseByte code (wire f.type v ++ rest)), hk]
    simp only [parsers_eq_map, getElem?_map, hf, Option.map_some]
    exact bind_pure_iff fun _ _ h => (Value.union.inj h).2
  case dictionary =>
    intro _ t _ v ih hv he ht rest mid
    rw [parse, wire, MapsFit]
    exact ih v hv he (DataType.carried_of_dictionaryValue ht)
      rest mid

/-- **A written row is read back exactly when its maps fit.** -/
theorem parseRow_wireRow {schema : Schema} {row : Row} (ht : ∀ f ∈ schema, f.type.carried = true)
    (h : Forall₂ (fun f v => SlotOk f.type v) schema row) :
    parseRow schema (wireRow schema row) = some row ↔ RowMapsFit schema row := by
  have hrun := parseSlots_slots (fun f hf => parse_wire f.type (ht f hf)) h [] []
  rw [append_nil] at hrun
  rw [parseRow_eq_some, wireRow, hrun]
  exact and_iff_right rfl

/-! ## Keys that take a byte -/

/-- What the recursion provides: the maps inside a value of the type fit whatever is behind. -/
def AlwaysFits (t : DataType) : Prop :=
  ∀ v, HasType t v → v.Encodable → ∀ after, MapsFit t v after

theorem payloadsFit_of_always : ∀ {fields : List Field} {vs : List Value},
    (∀ f ∈ fields, AlwaysFits f.type) → Forall₂ (fun f v => SlotOk f.type v) fields vs →
    ∀ after, PayloadsFit (fieldsFit fields) vs after
  | [], [], _, .nil, _ => trivial
  | ⟨name, t, nullable⟩ :: fields, v :: vs, h, .cons hv hvs, after => by
    refine ⟨fun hn => ?_, payloadsFit_of_always (fun f hf => h f (mem_cons_of_mem _ hf)) hvs
      after⟩
    rcases hv.1 with rfl | hty
    · cases hn
    · exact h _ mem_cons_self v hty hv.2 _

theorem payloadsFit_of_always_all (h : AlwaysFits t) (hv : ∀ v ∈ vs, SlotOk t v) (after : Nat) :
    PayloadsFit (replicate vs.length ⟨wire t, MapsFit t⟩) vs after := by
  have hall : ∀ f ∈ replicate vs.length (⟨"", t, true⟩ : Field), AlwaysFits f.type :=
    fun f hf => eq_of_mem_replicate hf ▸ h
  have hrun := payloadsFit_of_always hall (forall₂_replicate_left hv) after
  rwa [fieldsFit_replicate] at hrun

/-- **Where every key takes a byte, the check never refuses what was written.** -/
theorem mapsFit_of_keysTakeBytes (t : DataType) (ht : t.carried = true)
    (hkeys : t.keysTakeBytes = true) : AlwaysFits t := by
  intro v hty henc
  revert ht hkeys
  refine carried_induction ?bool ?fixed ?var ?struct ?list ?fixedSizeList ?map ?union ?dictionary
    t v hty henc
  case bool => exact fun _ _ _ _ => trivial
  case fixed => exact fun _ _ _ _ => trivial
  case var => exact fun _ _ _ _ _ _ => trivial
  case struct =>
    intro fields vs ih hvs ht hkeys after
    rw [DataType.carried, fieldsCarried_iff] at ht
    rw [DataType.keysTakeBytes, fieldsKeysTakeBytes_iff] at hkeys
    exact payloadsFit_of_always (fun f hf v hv he => ih f hf v hv he (ht f hf) (hkeys f hf)) hvs
      after
  case list =>
    intro _ item vs ih _ hvs ht hkeys after
    exact payloadsFit_of_always_all (fun v hv he => ih v hv he ht hkeys) hvs after
  case fixedSizeList =>
    intro item vs ih hvs ht hkeys after
    exact payloadsFit_of_always_all (fun v hv he => ih v hv he ht hkeys) hvs after
  case map =>
    intro key item _ ks vs ihk ihv _ _ hks hvs ht hkeys after
    rw [DataType.carried, Bool.and_eq_true] at ht
    rw [DataType.keysTakeBytes, Bool.and_eq_true, Bool.and_eq_true, Bool.not_eq_true'] at hkeys
    have hcnt := length_le_flatMap_wire hkeys.1.1 fun k hk => (hks k hk).1
    refine ⟨by omega, ?_, ?_⟩
    · exact payloadsFit_of_always_all (fun v hv he => ihk v hv he ht.1 hkeys.1.2)
        (fun k hk => ⟨.inr (hks k hk).1, (hks k hk).2⟩) _
    · exact payloadsFit_of_always_all (fun v hv he => ihv v hv he ht.2 hkeys.2) hvs _
  case union =>
    intro _ fields _ _ k f v ih hmem hk hf hv he ht hkeys after
    rw [DataType.carried, Bool.and_eq_true, fieldsCarried_iff] at ht
    rw [DataType.keysTakeBytes, fieldsKeysTakeBytes_iff] at hkeys
    rw [mapsFit_union hk hf]
    exact ih v hv he (ht.2 f hmem) (hkeys f hmem) after
  case dictionary =>
    intro _ t _ v ih hv he ht _ after
    rw [MapsFit]
    refine ih v hv he (DataType.carried_of_dictionaryValue ht) ?_
      after
    cases t <;> first | rfl | exact absurd ht (by simp [DataType.carried, DataType.dictionaryValue])

theorem rowMapsFit_of_keysTakeBytes {schema : Schema} {row : Row}
    (ht : ∀ f ∈ schema, f.type.carried = true) (hkeys : ∀ f ∈ schema, f.type.keysTakeBytes = true)
    (h : Forall₂ (fun f v => SlotOk f.type v) schema row) : RowMapsFit schema row :=
  payloadsFit_of_always (fun f hf => mapsFit_of_keysTakeBytes f.type (ht f hf) (hkeys f hf)) h 0

end Fletcher.Bridge
