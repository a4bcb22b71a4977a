import Fletcher.Bridge.Grammar

/-!
# Which bytes denote which value

`wire` is one way to write a value down and `parse` is one way to read it. In between stands
the relation `Denotes`: the bytes are a writing of the value. It looks at nothing but the
bytes themselves, so a statement about some other decoder can be made from it without a word
about how the bytes came to be accepted.

Two writings of a value differ in the padding of bitfields and in the bytes of true booleans,
and nowhere else (`denotes_recodes`). So they are equally long, the places of all bitfields are
known from the value alone, and `runs` lists them.
-/

namespace Fletcher.Bridge

open Lib Arrow Fletcher.Core Reader List

variable {bs rest : Bytes} {vs : List Value} {t : DataType} {fields : List Field} {v : Value}
  {n : Nat}

/-- Payloads one behind the other. A null has none. -/
def Payloads : List (Bytes → Value → Prop) → Bytes → List Value → Prop
  | [], bs, vs => bs = [] ∧ vs = []
  | p :: ps, bs, vs => ∃ b rest v vs', bs = b ++ rest ∧ vs = v :: vs' ∧
    (if v.isNull then b = [] else p b v) ∧ Payloads ps rest vs'

/-- A run of slots. Bits behind the last slot mean nothing. -/
def DenotesSlots (ps : List (Bytes → Value → Prop)) (bs : Bytes) (vs : List Value) : Prop :=
  ∃ bitfield body, bs = bitfield ++ body ∧ bitfield.length = bitfieldBytes ps.length ∧
    nullFlags bitfield ps.length = vs.map Value.isNull ∧ Payloads ps body vs

mutual

/-- The bytes are a payload of the value. -/
def Denotes : DataType → Bytes → Value → Prop
  | .bool, bs, .bool b => ∃ c : UInt8, bs = [c] ∧ b = (c != 0)
  | .fixed t, bs, .fixed v => v.type = t ∧ bs = v.repr
  | .var t, bs, .binary t' data => t' = t ∧ data.length < 2 ^ 32 ∧
    bs = leBytes 4 data.length ++ data
  | .struct fields, bs, .struct vs => DenotesSlots (denotes fields) bs vs
  | .list _ ⟨_, t, _⟩, bs, .list vs => vs.length < 2 ^ 32 ∧ ∃ body,
    bs = leBytes 4 vs.length ++ body ∧ DenotesSlots (List.replicate vs.length (Denotes t)) body vs
  | .fixedSizeList ⟨_, t, _⟩ n, bs, .list vs => DenotesSlots (List.replicate n (Denotes t)) bs vs
  | .map ⟨_, kt, _⟩ ⟨_, vt, _⟩ _, bs, .map ks vs => ks.length = vs.length ∧ ks.length < 2 ^ 32 ∧
    (∀ k ∈ ks, k.isNull = false) ∧ ∃ keys body, bs = leBytes 4 ks.length ++ (keys ++ body) ∧
      Payloads (List.replicate ks.length (Denotes kt)) keys ks ∧
      DenotesSlots (List.replicate ks.length (Denotes vt)) body vs
  | .union _ fields codes, bs, .union code v => ∃ k p b, childId codes code = some k ∧
    (denotes fields)[k]? = some p ∧ bs = code :: b ∧ p b v
  | .dictionary _ t _, bs, v => Denotes t bs v
  | _, _, _ => False

def denotes : List Field → List (Bytes → Value → Prop)
  | [] => []
  | ⟨_, t, _⟩ :: fs => Denotes t :: denotes fs

end

def DenotesRow (schema : Schema) (bs : Bytes) (row : Row) : Prop :=
  DenotesSlots (denotes schema) bs row

theorem denotes_eq_map : ∀ fields, denotes fields = fields.map fun f => Denotes f.type
  | [] => rfl
  | ⟨_, t, _⟩ :: fs => by rw [denotes, denotes_eq_map fs]; rfl

theorem Denotes.isNull_eq (h : Denotes t bs v) : v.isNull = false := by
  cases v with
  | null =>
    induction t with
    | dictionary _ t _ ih =>
      rw [Denotes] at h
      exact ih h
    | _ => cases h
  | _ => rfl

theorem Payloads.length_eq : ∀ {ps : List (Bytes → Value → Prop)} {bs : Bytes} {vs : List Value},
    Payloads ps bs vs → vs.length = ps.length
  | [], _, _, ⟨_, rfl⟩ => rfl
  | p :: ps, _, _, ⟨b, rest, v, vs', _, rfl, _, h⟩ => by
    rw [length_cons, length_cons, h.length_eq]

theorem DenotesSlots.length_eq {ps : List (Bytes → Value → Prop)}
    (h : DenotesSlots ps bs vs) : vs.length = ps.length := by
  obtain ⟨_, _, -, -, -, h⟩ := h
  exact h.length_eq

/-! ## What is written denotes the value -/

/-- The payloads of values, each written in a way that denotes it. -/
theorem payloads_wire : ∀ {fields : List Field} {vs : List Value},
    Forall₂ (fun f v => v.isNull = false → Denotes f.type (wire f.type v) v) fields vs →
    Payloads (denotes fields)
      ((zipWith slotOut (wires fields) vs).flatMap fun out => out.getD []) vs
  | [], _, .nil => ⟨rfl, rfl⟩
  | ⟨name, t, nullable⟩ :: fields, v :: vs, .cons hv hvs => by
    refine ⟨(slotOut (wire t) v).getD [], _, v, vs, flatMap_cons, rfl, ?_, payloads_wire hvs⟩
    cases hn : v.isNull with
    | true => rw [slotOut_of_null hn]; rfl
    | false =>
      rw [slotOut_of_not_null hn]
      exact hv hn

theorem denotesSlots_wire
    (h : Forall₂ (fun f v => v.isNull = false → Denotes f.type (wire f.type v) v) fields vs) :
    DenotesSlots (denotes fields) (slots (zipWith slotOut (wires fields) vs)) vs := by
  have hlen := h.length_eq
  have hflg : (zipWith slotOut (wires fields) vs).map Option.isNone = vs.map Value.isNull :=
    slotOuts_isNone hlen
  have hcnt : (denotes fields).length = (vs.map Value.isNull).length := by
    rw [denotes_eq_map, length_map, length_map, hlen]
  refine ⟨packBits (vs.map Value.isNull), _, ?_, ?_, ?_, payloads_wire h⟩
  · rw [slots, hflg]
  · rw [packBits_length, hcnt]
  · exact nullFlags_packBits hcnt.symm

/-- The slots of a list are those of a struct whose fields are all alike. -/
theorem wires_replicate (name : String) (t : DataType) (nullable : Bool) (vs : List Value) :
    zipWith slotOut (wires (replicate vs.length ⟨name, t, nullable⟩)) vs =
      vs.map (slotOut (wire t)) := by
  rw [wires_eq_map, map_replicate, zipWith_replicate_left rfl]

theorem denotes_replicate (name : String) (t : DataType) (nullable : Bool) (n : Nat) :
    denotes (replicate n ⟨name, t, nullable⟩) = replicate n (Denotes t) := by
  rw [denotes_eq_map, map_replicate]

theorem forall₂_replicate_left {R : Field → Value → Prop} {f : Field} : ∀ {vs : List Value},
    (∀ v ∈ vs, R f v) → Forall₂ R (replicate vs.length f) vs
  | [], _ => .nil
  | v :: _, h =>
    .cons (h v mem_cons_self)
      (forall₂_replicate_left fun u hu => h u (mem_cons_of_mem v hu))

/-- What the recursion provides about values of the type. -/
def WireDenotes (t : DataType) : Prop := ∀ v, HasType t v → v.Encodable → Denotes t (wire t v) v

theorem WireDenotes.slot (h : WireDenotes t) (hv : SlotOk t v)
    (hn : v.isNull = false) : Denotes t (wire t v) v := by
  rcases hv.1 with rfl | hty
  · cases hn
  · exact h v hty hv.2

theorem denotesSlots_wire_all (h : WireDenotes t) (hv : ∀ v ∈ vs, SlotOk t v) :
    DenotesSlots (replicate vs.length (Denotes t)) (slots (vs.map (slotOut (wire t)))) vs := by
  have hsl := denotesSlots_wire (forall₂_replicate_left (f := ⟨"", t, true⟩) fun v hmem =>
    h.slot (hv v hmem))
  rwa [denotes_replicate, wires_replicate] at hsl

theorem payloads_wire_all (h : WireDenotes t)
    (hv : ∀ v ∈ vs, SlotOk t v) (hn : ∀ v ∈ vs, v.isNull = false) :
    Payloads (replicate vs.length (Denotes t)) (vs.flatMap (wire t)) vs := by
  have hpay := payloads_wire (forall₂_replicate_left (f := ⟨"", t, true⟩) fun v hmem =>
    h.slot (hv v hmem))
  rwa [denotes_replicate, wires_replicate, flatMap_map, payloads_present hn] at hpay

/-- **What `wire` writes denotes the value.** -/
theorem wire_denotes (t : DataType) (ht : t.supported = true) : WireDenotes t := by
  intro v hty henc
  revert ht
  refine carried_induction ?bool ?fixed ?var ?struct ?list ?fixedSizeList ?map ?union ?dictionary
    t v hty henc
  case bool =>
    intro b _
    cases b
    · exact ⟨0, rfl, rfl⟩
    · exact ⟨1, rfl, rfl⟩
  case fixed => exact fun _ _ => ⟨rfl, rfl⟩
  case var => exact fun _ _ hlen _ => ⟨rfl, hlen, rfl⟩
  case struct =>
    intro fields vs ih hvs ht
    rw [DataType.supported, fieldsSupported_iff] at ht
    rw [wire, Denotes]
    refine denotesSlots_wire (forall₂_iff_get.mpr ⟨hvs.length_eq, fun i hi hi' hn => ?_⟩)
    have hwire : WireDenotes (fields.get ⟨i, hi⟩).type :=
      fun v hv he => ih _ (List.get_mem ..) v hv he (ht _ (List.get_mem ..))
    exact hwire.slot (hvs.get hi hi') hn
  case list =>
    intro _ item vs ih hcnt hvs ht
    exact ⟨hcnt, _, rfl, denotesSlots_wire_all (fun v hv he => ih v hv he ht) hvs⟩
  case fixedSizeList =>
    intro item vs ih hvs ht
    exact denotesSlots_wire_all (fun v hv he => ih v hv he ht) hvs
  case map =>
    intro key item _ ks vs ihk ihv hlen hcnt hks hvs ht
    rw [DataType.supported, Bool.and_eq_true] at ht
    have hkn : ∀ k ∈ ks, k.isNull = false := fun k hk => (hks k hk).1.isNull_eq
    refine ⟨hlen, hcnt, hkn, _, _, rfl, payloads_wire_all (fun v hv he => ihk v hv he ht.1)
      (fun k hk => ⟨.inr (hks k hk).1, (hks k hk).2⟩) hkn, ?_⟩
    rw [hlen]
    exact denotesSlots_wire_all (fun v hv he => ihv v hv he ht.2) hvs
  case union =>
    intro _ fields _ _ k f v ih hmem hk hf hv he ht
    rw [DataType.supported, Bool.and_eq_true, fieldsSupported_iff] at ht
    rw [wire_union hk hf]
    refine ⟨k, Denotes f.type, _, hk, ?_, rfl, ih v hv he (ht.2 f hmem)⟩
    rw [denotes_eq_map, getElem?_map, hf]
    rfl
  case dictionary =>
    intro _ _ _ _ _ _ _ ht
    cases ht

theorem wireRow_denotes {schema : Schema} {row : Row} (ht : ∀ f ∈ schema, f.type.supported = true)
    (h : Forall₂ (fun f v => SlotOk f.type v) schema row) :
    DenotesRow schema (wireRow schema row) row := by
  refine denotesSlots_wire (forall₂_iff_get.mpr ⟨h.length_eq, fun i hi hi' hn => ?_⟩)
  exact (wire_denotes _ (ht _ (List.get_mem ..))).slot (h.get hi hi') hn

/-! ## What is parsed was denoted -/

/-- The reader accepts only what denotes its result. -/
def ReadsDenoted (x : Parse Value) (p : Bytes → Value → Prop) : Prop :=
  ∀ bs v rest, x bs = .ok (v, rest) → ∃ b, bs = b ++ rest ∧ p b v

theorem parseU32_eq_ok (h : parseU32 bs = .ok (n, rest)) :
    n < 2 ^ 32 ∧ bs = leBytes 4 n ++ rest := by
  obtain ⟨word, htake, rfl⟩ := bind_pure_eq_ok.mp h
  obtain ⟨hlen, rfl⟩ := take_eq_ok.mp htake
  have hword : leBytes 4 (ofLe word) = word := hlen ▸ leBytes_ofLe word
  exact ⟨ofLe_lt_four hlen, by rw [hword]⟩

theorem parseByte_eq_ok {c : UInt8} (h : parseByte bs = .ok (c, rest)) : bs = c :: rest := by
  obtain ⟨_, _, htake, hret⟩ := bind_eq_ok.mp h
  obtain ⟨hlen, rfl⟩ := take_eq_ok.mp htake
  obtain ⟨rfl, rfl⟩ := pure_eq_ok.mp hret
  obtain ⟨c, rfl⟩ := length_eq_one_iff.mp hlen
  rfl

/-- The slots behind a bitfield, by the flags it was read as. -/
theorem payloads_of_parse : ∀ {xs : List (Parse Value)} {ps : List (Bytes → Value → Prop)}
    {flags : List Bool}, Forall₂ ReadsDenoted xs ps → (∀ p ∈ ps, ∀ b v, p b v → v.isNull = false) →
    flags.length = xs.length → ∀ {bs rest : Bytes} {vs : List Value},
    runAll (zipWith (slot .null) xs flags) bs = .ok (vs, rest) →
    ∃ body, bs = body ++ rest ∧ flags = vs.map Value.isNull ∧ Payloads ps body vs
  | [], _, [], .nil, _, _, bs, rest, vs, h => by
    obtain ⟨rfl, rfl⟩ := pure_eq_ok.mp h
    exact ⟨[], rfl, rfl, rfl, rfl⟩
  | x :: xs, p :: ps, flag :: flags, .cons hx hxs, hps, hlen, bs, rest, vs, h => by
    obtain ⟨v, _, vs', hv, hvs, rfl⟩ := runAll_eq_ok.mp h
    obtain ⟨body, rfl, rfl, hbody⟩ := payloads_of_parse hxs
      (fun q hq => hps q (mem_cons_of_mem p hq)) (Nat.succ.inj hlen) hvs
    cases flag with
    | true =>
      obtain ⟨rfl, rfl⟩ := pure_eq_ok.mp hv
      exact ⟨body, rfl, rfl, [], body, .null, vs', rfl, rfl, rfl, hbody⟩
    | false =>
      obtain ⟨b, rfl, hb⟩ := hx bs v (body ++ rest) hv
      have hn := hps p mem_cons_self b v hb
      refine ⟨b ++ body, by rw [append_assoc], by rw [map_cons, hn], b, body, v, vs', rfl,
        rfl, ?_, hbody⟩
      rw [hn]
      exact hb

theorem denotesSlots_of_parse {xs : List (Parse Value)} {ps : List (Bytes → Value → Prop)}
    (h : Forall₂ ReadsDenoted xs ps) (hps : ∀ p ∈ ps, ∀ b v, p b v → v.isNull = false)
    (hread : parseSlots xs bs = .ok (vs, rest)) :
    ∃ b, bs = b ++ rest ∧ DenotesSlots ps b vs := by
  obtain ⟨bitfield, _, htake, hrun⟩ := bind_eq_ok.mp hread
  obtain ⟨hlen, rfl⟩ := take_eq_ok.mp htake
  obtain ⟨body, rfl, hflg, hbody⟩ := payloads_of_parse h hps (nullFlags_length _ _) hrun
  rw [h.length_eq] at hlen hflg
  exact ⟨bitfield ++ body, by rw [append_assoc], bitfield, body, rfl, hlen, hflg, hbody⟩

theorem denotesSlots_of_parse_all (h : ReadsDenoted (parse t) (Denotes t))
    (hread : parseSlots (replicate n (parse t)) bs = .ok (vs, rest)) :
    ∃ b, bs = b ++ rest ∧ DenotesSlots (replicate n (Denotes t)) b vs :=
  denotesSlots_of_parse (forall₂_replicate h n)
    (fun _ hp _ _ hd => Denotes.isNull_eq (eq_of_mem_replicate hp ▸ hd)) hread

theorem denotes_not_null : ∀ p ∈ denotes fields, ∀ b v, p b v → v.isNull = false := by
  intro p hp b v hb
  rw [denotes_eq_map] at hp
  obtain ⟨f, -, rfl⟩ := mem_map.mp hp
  exact hb.isNull_eq

theorem parsers_denote (h : ∀ f ∈ fields, ReadsDenoted (parse f.type) (Denotes f.type)) :
    Forall₂ ReadsDenoted (parsers fields) (denotes fields) := by
  rw [parsers_eq_map, denotes_eq_map, forall₂_map_left_iff, forall₂_map_right_iff,
    forall₂_same]
  exact h

/-- A run without a bitfield is one whose flags are all clear. -/
theorem zipWith_slot_false (xs : List (Parse Value)) :
    zipWith (slot .null) xs (replicate xs.length false) = xs := by
  induction xs with
  | nil => rfl
  | cons x xs ih =>
    rw [length_cons, replicate_succ, zipWith_cons_cons, ih]
    rfl

/-- **What `parse` accepts denotes what it returns.** -/
theorem parse_denotes (t : DataType) : ReadsDenoted (parse t) (Denotes t) := by
  intro bs v rest h
  induction t generalizing bs v rest with
  | bool =>
    obtain ⟨c, hc, rfl⟩ := bind_pure_eq_ok.mp h
    exact ⟨[c], parseByte_eq_ok hc, c, rfl, rfl⟩
  | fixed t =>
    obtain ⟨b, htake, rfl⟩ := bind_pure_eq_ok.mp h
    obtain ⟨hlen, rfl⟩ := take_eq_ok.mp htake
    exact ⟨b, rfl, rfl, (FixedValue.ofBytes_repr hlen).symm⟩
  | var t =>
    obtain ⟨n, mid, hn, h⟩ := bind_eq_ok.mp h
    obtain ⟨_, htake, rfl⟩ := bind_pure_eq_ok.mp h
    obtain ⟨rfl, rfl⟩ := take_eq_ok.mp htake
    obtain ⟨hlt, rfl⟩ := parseU32_eq_ok hn
    exact ⟨_, (append_assoc ..).symm, rfl, hlt, rfl⟩
  | struct fields ih =>
    obtain ⟨vs, hvs, rfl⟩ := bind_pure_eq_ok.mp h
    exact denotesSlots_of_parse (parsers_denote ih) denotes_not_null hvs
  | list _ item ih =>
    obtain ⟨n, mid, hn, h⟩ := bind_eq_ok.mp h
    obtain ⟨vs, hvs, rfl⟩ := bind_pure_eq_ok.mp h
    obtain ⟨hlt, rfl⟩ := parseU32_eq_ok hn
    obtain ⟨b, rfl, hb⟩ := denotesSlots_of_parse_all ih hvs
    have hlen : vs.length = n := by rw [hb.length_eq, length_replicate]
    rw [← hlen] at hlt hb ⊢
    exact ⟨_, (append_assoc ..).symm, hlt, b, rfl, hb⟩
  | fixedSizeList item n ih =>
    obtain ⟨vs, hvs, rfl⟩ := bind_pure_eq_ok.mp h
    exact denotesSlots_of_parse_all ih hvs
  | map _ item _ ihk ihv =>
    obtain ⟨n, mid, hn, h⟩ := bind_eq_ok.mp h
    obtain ⟨_, mid, hleft, h⟩ := bind_eq_ok.mp h
    obtain ⟨u, mid', hreq, h⟩ := bind_eq_ok.mp h
    obtain ⟨ks, _, hks, h⟩ := bind_eq_ok.mp h
    obtain ⟨vs, hvs, rfl⟩ := bind_pure_eq_ok.mp h
    obtain ⟨-, rfl⟩ := require_eq_ok.mp hreq
    cases hleft
    obtain ⟨hlt, rfl⟩ := parseU32_eq_ok hn
    obtain ⟨body, rfl, hbody⟩ := denotesSlots_of_parse_all ihv hvs
    rw [← zipWith_slot_false (replicate n _)] at hks
    obtain ⟨keys, rfl, hflg, hkeys⟩ := payloads_of_parse (forall₂_replicate ihk n)
      (fun _ hp _ _ hd => Denotes.isNull_eq (eq_of_mem_replicate hp ▸ hd)) (by simp) hks
    have hklen : ks.length = n := by rw [hkeys.length_eq, length_replicate]
    have hvlen : vs.length = n := by rw [hbody.length_eq, length_replicate]
    subst hklen
    refine ⟨_, ?_, hvlen.symm, hlt, fun k hk => ?_, keys, body, rfl, hkeys, hbody⟩
    · rw [append_assoc, append_assoc]
    · have hmem : k.isNull ∈ ks.map Value.isNull := mem_map_of_mem hk
      rw [← hflg] at hmem
      exact eq_of_mem_replicate hmem
  | union _ fields codes ih =>
    obtain ⟨code, mid, hcode, h⟩ := bind_eq_ok.mp h
    cases hk : childId codes code with
    | none => rw [hk] at h; cases h
    | some k =>
      simp only [hk, parsers_eq_map, getElem?_map] at h
      cases hf : fields[k]? with
      | none => rw [hf] at h; cases h
      | some f =>
        rw [hf] at h
        obtain ⟨u, hu, rfl⟩ := bind_pure_eq_ok.mp h
        obtain ⟨b, rfl, hb⟩ := ih f (mem_of_getElem? hf) mid u _ hu
        refine ⟨code :: b, parseByte_eq_ok hcode, k, Denotes f.type, b, hk, ?_, rfl, hb⟩
        rw [denotes_eq_map, getElem?_map, hf]
        rfl
  | dictionary _ t _ ih =>
    obtain ⟨b, hbs, hb⟩ := ih bs v rest h
    exact ⟨b, hbs, by rwa [Denotes]⟩
  | unsupported _ =>
    cases h

theorem parseRow_denotes {schema : Schema} {buf : Bytes} {row : Row}
    (h : parseRow schema buf = some row) : DenotesRow schema buf row := by
  rw [parseRow_eq_some] at h
  have hfs : Forall₂ ReadsDenoted (parsers schema) (denotes schema) :=
    parsers_denote fun f _ => parse_denotes f.type
  obtain ⟨b, rfl, _⟩ := denotesSlots_of_parse hfs denotes_not_null h
  rwa [append_nil]

/-! ## Where two writings of a value may differ -/

/-- What a byte of a value is for. -/
inductive Place where
  /-- The byte is read for what it is. -/
  | plain
  /-- A boolean: any byte but zero is true. -/
  | flag
  /-- A byte of a bitfield with so many slots left; the bits behind them are padding. -/
  | bits (slots : Nat)

/-- What is left of a byte when the value is written anew: a boolean becomes 0 or 1, padding
is cleared, and every other bit stays. -/
def Place.Recodes : Place → UInt8 → UInt8 → Prop
  | .plain, c, d => d = c
  | .flag, c, d => d = if c = 0 then 0 else 1
  | .bits n, c, d => ∀ j, j < 8 → d.toNat.testBit j = (decide (j < n) && c.toNat.testBit j)

/-- Byte for byte, the second writing is what the first one becomes. -/
def Recoded (places : List Place) (bs ds : Bytes) : Prop :=
  bs.length = places.length ∧ ds.length = places.length ∧
    ∀ i (p : Place), places[i]? = some p → p.Recodes (bs.getD i 0) (ds.getD i 0)

theorem Recoded.append {places places' : List Place} {bs' ds ds' : Bytes}
    (h : Recoded places bs ds) (h' : Recoded places' bs' ds') :
    Recoded (places ++ places') (bs ++ bs') (ds ++ ds') := by
  obtain ⟨hbs, hds, hall⟩ := h
  obtain ⟨hbs', hds', hall'⟩ := h'
  refine ⟨by rw [length_append, length_append, hbs, hbs'],
    by rw [length_append, length_append, hds, hds'], ?_⟩
  intro i p hp
  rw [getD_eq_getElem?_getD, getD_eq_getElem?_getD]
  by_cases hi : i < places.length
  · rw [getElem?_append_left hi] at hp
    rw [getElem?_append_left (by omega), getElem?_append_left (by omega)]
    exact hall i p hp
  · rw [getElem?_append_right (by omega)] at hp
    rw [getElem?_append_right (by omega), getElem?_append_right (by omega), hbs, hds]
    exact hall' _ p hp

theorem Recoded.length_eq {places : List Place} {ds : Bytes} (h : Recoded places bs ds) :
    bs.length = ds.length := by
  rw [h.1, h.2.1]

theorem recoded_plain (bs : Bytes) : Recoded (replicate bs.length .plain) bs bs := by
  refine ⟨by simp, by simp, ?_⟩
  intro i p hp
  rw [eq_of_mem_replicate (mem_of_getElem? hp)]
  rfl

/-- The bytes of a bitfield of `n` slots. -/
def bitPlaces (n : Nat) : List Place :=
  (List.range (bitfieldBytes n)).map fun j => .bits (n - 8 * j)

theorem recoded_bits {bitfield : Bytes} {flags : List Bool}
    (hlen : bitfield.length = bitfieldBytes flags.length)
    (h : nullFlags bitfield flags.length = flags) :
    Recoded (bitPlaces flags.length) bitfield (packBits flags) := by
  refine ⟨by simp [bitPlaces, hlen], by simp [bitPlaces], ?_⟩
  intro i p hp
  rw [bitPlaces, getElem?_map, Option.map_eq_some_iff] at hp
  obtain ⟨_, hi', rfl⟩ := hp
  obtain ⟨_, rfl⟩ := List.getElem?_eq_some_iff.mp hi'
  rw [getElem_range]
  intro j _
  -- bit `j` of byte `i` is the bit of slot `8 * i + j`
  have hbit : ∀ bf : Bytes, (bf.getD i 0).toNat.testBit j = readBit bf (8 * i + j) := by
    intro bf
    rw [readBit, show (8 * i + j) / 8 = i by omega, show (8 * i + j) % 8 = j by omega]
  rw [hbit, hbit, readBit_packBits, getD_eq_getElem?_getD]
  by_cases hslot : 8 * i + j < flags.length
  · have hflag : flags[8 * i + j]? = some (readBit bitfield (8 * i + j)) := by
      conv_lhs => rw [← h]
      rw [nullFlags, getElem?_map, getElem?_range hslot]
      rfl
    rw [hflag, decide_eq_true (by omega)]
    rfl
  · rw [getElem?_eq_none (by omega), decide_eq_false (by omega)]
    rfl

/-- The places of a slot: none when it is null. -/
def slotPlaces (inner : Value → List Place) (v : Value) : Option (List Place) :=
  if v.isNull then none else some (inner v)

/-- The places of a run of slots. -/
def runPlaces (outs : List (Option (List Place))) : List Place :=
  bitPlaces outs.length ++ outs.flatMap fun out => out.getD []

mutual

/-- What each byte of a value's payload is for. -/
def places : DataType → Value → List Place
  | .bool, .bool _ => [.flag]
  | .struct fields, .struct vs => runPlaces (List.zipWith slotPlaces (fieldPlaces fields) vs)
  | .list _ ⟨_, t, _⟩, .list vs =>
    List.replicate 4 .plain ++ runPlaces (vs.map (slotPlaces (places t)))
  | .fixedSizeList ⟨_, t, _⟩ _, .list vs => runPlaces (vs.map (slotPlaces (places t)))
  | .map ⟨_, kt, _⟩ ⟨_, vt, _⟩ _, .map ks vs =>
    List.replicate 4 .plain ++
      (ks.flatMap (places kt) ++ runPlaces (vs.map (slotPlaces (places vt))))
  | .union _ fields codes, .union code v =>
    match childId codes code with
    | some k =>
      match (fieldPlaces fields)[k]? with
      | some inner => .plain :: inner v
      | none => []
    | none => []
  | .dictionary _ t _, v => places t v
  | t, v => List.replicate (wire t v).length .plain

def fieldPlaces : List Field → List (Value → List Place)
  | [] => []
  | ⟨_, t, _⟩ :: fs => places t :: fieldPlaces fs

end

/-- What each byte of a row is for. -/
def rowPlaces (schema : Schema) (row : Row) : List Place :=
  runPlaces (List.zipWith slotPlaces (fieldPlaces schema) row)

theorem fieldPlaces_eq_map : ∀ fields, fieldPlaces fields = fields.map fun f => places f.type
  | [] => rfl
  | ⟨_, t, _⟩ :: fs => by rw [fieldPlaces, fieldPlaces_eq_map fs]; rfl

theorem fieldPlaces_replicate (t : DataType) (vs : List Value) :
    zipWith slotPlaces (fieldPlaces (replicate vs.length ⟨"", t, true⟩)) vs =
      vs.map (slotPlaces (places t)) := by
  rw [fieldPlaces_eq_map, map_replicate]
  exact zipWith_replicate_left rfl

/-- What the recursion provides: writing a value of the type anew changes no more than that. -/
def Recodes (t : DataType) : Prop := ∀ bs v, Denotes t bs v → Recoded (places t v) bs (wire t v)

theorem Payloads.recoded : ∀ {fields : List Field} {bs : Bytes} {vs : List Value},
    (∀ f ∈ fields, Recodes f.type) → Payloads (denotes fields) bs vs →
    Recoded ((zipWith slotPlaces (fieldPlaces fields) vs).flatMap fun out => out.getD []) bs
      ((zipWith slotOut (wires fields) vs).flatMap fun out => out.getD [])
  | [], _, _, _, ⟨rfl, rfl⟩ => recoded_plain []
  | ⟨name, t, nullable⟩ :: fields, _, _, h, ⟨b, rest, v, vs, rfl, rfl, hb, hrest⟩ => by
    have ih := hrest.recoded fun f hf => h f (mem_cons_of_mem _ hf)
    refine Recoded.append ?_ ih
    cases hn : v.isNull with
    | true =>
      rw [hn, if_pos rfl] at hb
      rw [slotOut_of_null hn, slotPlaces, if_pos hn, hb]
      exact recoded_plain []
    | false =>
      rw [hn] at hb
      rw [slotOut_of_not_null hn, slotPlaces, if_neg (by simp [hn])]
      exact h _ mem_cons_self b v hb

theorem DenotesSlots.recoded (hf : ∀ f ∈ fields, Recodes f.type)
    (h : DenotesSlots (denotes fields) bs vs) :
    Recoded (runPlaces (zipWith slotPlaces (fieldPlaces fields) vs)) bs
      (slots (zipWith slotOut (wires fields) vs)) := by
  have hcnt := h.length_eq
  obtain ⟨_, _, rfl, hbits, hflg, hbody⟩ := h
  rw [denotes_eq_map, length_map] at hcnt hbits hflg
  have houts : (zipWith slotPlaces (fieldPlaces fields) vs).length =
      (vs.map Value.isNull).length := by
    rw [fieldPlaces_eq_map, length_zipWith, length_map, length_map, hcnt,
      Nat.min_self]
  rw [runPlaces, houts, slots, slotOuts_isNone hcnt.symm]
  refine Recoded.append (recoded_bits ?_ ?_) (hbody.recoded hf)
  · rw [length_map, hcnt, hbits]
  · rw [length_map, hcnt, hflg]

/-- A list's slots. -/
theorem DenotesSlots.recoded_all (ht : Recodes t)
    (h : DenotesSlots (replicate n (Denotes t)) bs vs) :
    Recoded (runPlaces (vs.map (slotPlaces (places t)))) bs
      (slots (vs.map (slotOut (wire t)))) := by
  have hlen : vs.length = n := by rw [h.length_eq, length_replicate]
  rw [← hlen, ← denotes_replicate "" t true] at h
  rw [← wires_replicate "" t true, ← fieldPlaces_replicate]
  exact h.recoded fun f hf => eq_of_mem_replicate hf ▸ ht

/-- A map's keys. -/
theorem Payloads.recoded_all (ht : Recodes t) (hn : ∀ v ∈ vs, v.isNull = false)
    (h : Payloads (replicate n (Denotes t)) bs vs) :
    Recoded (vs.flatMap (places t)) bs (vs.flatMap (wire t)) := by
  have hlen : vs.length = n := by rw [h.length_eq, length_replicate]
  rw [← hlen, ← denotes_replicate "" t true] at h
  have hrun := h.recoded fun f hf => eq_of_mem_replicate hf ▸ ht
  have hpla : (vs.flatMap fun v => (slotPlaces (places t) v).getD []) = vs.flatMap (places t) := by
    refine flatMap_congr fun v hv => ?_
    rw [slotPlaces, if_neg (by simp [hn v hv]), Option.getD_some]
  rwa [fieldPlaces_replicate, wires_replicate, flatMap_map, flatMap_map,
    payloads_present hn, hpla] at hrun

/-- **Two writings of a value differ in padding and in true booleans only.** -/
theorem denotes_recodes (t : DataType) : Recodes t := by
  intro bs v h
  induction t generalizing bs v with
  | bool =>
    cases v <;> simp only [Denotes] at h
    obtain ⟨c, rfl, rfl⟩ := h
    refine ⟨rfl, rfl, ?_⟩
    intro i p hp
    obtain ⟨hi, rfl⟩ := List.getElem?_eq_some_iff.mp hp
    obtain rfl : i = 0 := Nat.lt_one_iff.mp hi
    by_cases hc : c = 0
    · simp [places, Place.Recodes, wire, hc]
    · simp [places, Place.Recodes, wire, hc]
  | fixed t =>
    cases v <;> simp only [Denotes] at h
    obtain ⟨-, rfl⟩ := h
    exact recoded_plain _
  | var t =>
    cases v <;> simp only [Denotes] at h
    obtain ⟨-, -, rfl⟩ := h
    exact recoded_plain _
  | struct fields ih =>
    cases v <;> simp only [Denotes] at h
    rw [places, wire]
    exact h.recoded ih
  | list _ item ih =>
    cases v <;> simp only [Denotes] at h
    obtain ⟨-, body, rfl, hbody⟩ := h
    exact (recoded_plain (leBytes 4 _)).append (hbody.recoded_all ih)
  | fixedSizeList item n ih =>
    cases v <;> simp only [Denotes] at h
    exact h.recoded_all ih
  | map _ item _ ihk ihv =>
    cases v <;> simp only [Denotes] at h
    obtain ⟨-, -, hn, _, body, rfl, hkeys, hbody⟩ := h
    exact (recoded_plain (leBytes 4 _)).append
      ((hkeys.recoded_all ihk hn).append (hbody.recoded_all ihv))
  | union _ fields _ ih =>
    cases v <;> simp only [Denotes] at h
    obtain ⟨k, p, b, hk, hp, rfl, hb⟩ := h
    rw [denotes_eq_map, getElem?_map, Option.map_eq_some_iff] at hp
    obtain ⟨f, hf, rfl⟩ := hp
    rw [wire_union hk hf, places, hk]
    simp only [fieldPlaces_eq_map, getElem?_map, hf, Option.map_some]
    exact (recoded_plain [_]).append (ih f (mem_of_getElem? hf) b _ hb)
  | dictionary _ t _ ih =>
    rw [Denotes] at h
    rw [places, wire]
    exact ih bs v h
  | unsupported _ =>
    cases h

/-- **A value's bytes are as many as `wire` has**, whichever they are. -/
theorem Denotes.length_eq (h : Denotes t bs v) : bs.length = (wire t v).length :=
  (denotes_recodes t bs v h).length_eq

/-! ## Where the bitfields are -/

/-- A bitfield: where it starts and what it says. -/
abbrev Run := Nat × List Bool

/-- A slot that is present, by its payload and the bitfields in it, given where it starts. -/
abbrev Item := Option (Bytes × (Nat → List Run))

def slotItem (enc : Value → Bytes) (inner : Value → Nat → List Run) (v : Value) : Item :=
  if v.isNull then none else some (enc v, inner v)

/-- What the slots are on the wire. -/
def Item.out (item : Item) : Option Bytes := Option.map Prod.fst item

/-- The bitfields of payloads that start at `pos`. -/
def itemRuns : List Item → Nat → List Run
  | [], _ => []
  | none :: items, pos => itemRuns items pos
  | some (payload, inner) :: items, pos => inner pos ++ itemRuns items (pos + payload.length)

/-- The bitfield of a run of slots that starts at `pos`, and those behind it. -/
def slotRuns (items : List Item) (pos : Nat) : List Run :=
  (pos, items.map Option.isNone) :: itemRuns items (pos + bitfieldBytes items.length)

mutual

/-- All bitfields of a value whose payload starts at `pos`. -/
def runs : DataType → Value → Nat → List Run
  | .struct fields, .struct vs, pos =>
    slotRuns (List.zipWith (fun p v => slotItem p.1 p.2 v)
      ((wires fields).zip (fieldRuns fields)) vs)
      pos
  | .list _ ⟨_, t, _⟩, .list vs, pos => slotRuns (vs.map (slotItem (wire t) (runs t))) (pos + 4)
  | .fixedSizeList ⟨_, t, _⟩ _, .list vs, pos => slotRuns (vs.map (slotItem (wire t) (runs t))) pos
  | .map ⟨_, kt, _⟩ ⟨_, vt, _⟩ _, .map ks vs, pos =>
    itemRuns (ks.map (slotItem (wire kt) (runs kt))) (pos + 4) ++
      slotRuns (vs.map (slotItem (wire vt) (runs vt))) (pos + 4 + (ks.flatMap (wire kt)).length)
  | .union _ fields codes, .union code v, pos =>
    match childId codes code with
    | some k =>
      match (fieldRuns fields)[k]? with
      | some inner => inner v (pos + 1)
      | none => []
    | none => []
  | .dictionary _ t _, v, pos => runs t v pos
  | _, _, _ => []

def fieldRuns : List Field → List (Value → Nat → List Run)
  | [] => []
  | ⟨_, t, _⟩ :: fs => runs t :: fieldRuns fs

end

/-- What the slots of fields hold. -/
def fieldItems (fields : List Field) (vs : List Value) : List Item :=
  List.zipWith (fun f v => slotItem (wire f.type) (runs f.type) v) fields vs

/-- All bitfields of a row. -/
def rowRuns (schema : Schema) (row : Row) : List Run := slotRuns (fieldItems schema row) 0

theorem fieldRuns_eq_map : ∀ fields, fieldRuns fields = fields.map fun f => runs f.type
  | [] => rfl
  | ⟨_, t, _⟩ :: fs => by rw [fieldRuns, fieldRuns_eq_map fs]; rfl

theorem runs_struct (fields : List Field) (vs : List Value) (pos : Nat) :
    runs (.struct fields) (.struct vs) pos = slotRuns (fieldItems fields vs) pos := by
  rw [runs, wires_eq_map, fieldRuns_eq_map, zip_map', zipWith_map_left]
  rfl

theorem fieldItems_replicate (t : DataType) (vs : List Value) :
    fieldItems (replicate vs.length ⟨"", t, true⟩) vs = vs.map (slotItem (wire t) (runs t)) :=
  zipWith_replicate_left rfl

theorem slotItem_out (enc : Value → Bytes) (inner : Value → Nat → List Run) (v : Value) :
    (slotItem enc inner v).out = slotOut enc v := by
  unfold slotItem slotOut
  split <;> rfl

theorem fieldItems_out (fields : List Field) (vs : List Value) :
    (fieldItems fields vs).map Item.out = zipWith slotOut (wires fields) vs := by
  rw [fieldItems, map_zipWith, wires_eq_map, zipWith_map_left]
  simp only [slotItem_out]

theorem runs_union {mode : UnionMode} {codes : List UInt8} {code : UInt8} {k : Nat} {f : Field}
    (hk : childId codes code = some k) (hf : fields[k]? = some f) (pos : Nat) :
    runs (.union mode fields codes) (.union code v) pos = runs f.type v (pos + 1) := by
  rw [runs, hk]
  simp only [fieldRuns_eq_map, getElem?_map, hf, Option.map_some]

end Fletcher.Bridge
