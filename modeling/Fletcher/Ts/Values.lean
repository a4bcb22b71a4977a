import Fletcher.Ts.Descriptor
import Fletcher.Lib.Utf8

/-!
# JavaScript values

JavaScript as far as the codec depends on it. A record is looked up through its own
properties first and `Object.prototype` behind them; an integer of up to 32 bits is a number
and one of 64 bits a bigint; a string is a sequence of Unicode scalar values, kept here in
UTF-8; a float is its bit pattern and nothing else.

`Shows` says which JavaScript value stands for which Arrow value under a descriptor. It comes
in two views. What a caller hands to the encoder is looked at as the encoder looks at it: a
property may be inherited, and a null may be `undefined`. What the decoder returns is looked at
more closely: every field is a property of the record itself, and a null is `null`.

`Clean` is the other half of the story: the values the decoder can make a JavaScript value of
at all.
-/

namespace Fletcher.Ts

open Lib Arrow List

/-- A string without lone surrogates. -/
structure JsString where
  utf8 : Bytes
  valid : Utf8.valid utf8 = true
  deriving DecidableEq

inductive Js where
  | undefined
  | null
  | bool (b : Bool)
  | number (n : Int)
  | float (bits : Bytes)
  | bigint (n : Int)
  | string (s : JsString)
  | bytes (data : Bytes)
  /-- The properties are the record's own. -/
  | object (props : List (String × Js))
  | array (items : List Js)
  | map (entries : List (Js × Js))
  /-- What every record inherits from `Object.prototype`. -/
  | builtin

/-- `v == null`. -/
def Js.isNullish : Js → Bool
  | .undefined | .null => true
  | _ => false

/-! ## Records -/

/-- The names of `Object.prototype`. -/
def inherited : List String :=
  ["constructor", "__defineGetter__", "__defineSetter__", "hasOwnProperty", "__lookupGetter__",
    "__lookupSetter__", "isPrototypeOf", "propertyIsEnumerable", "toString", "valueOf",
    "__proto__", "toLocaleString"]

/-- `obj[name]`. -/
def property (props : List (String × Js)) (name : String) : Js :=
  match props.lookup name with
  | some v => v
  | none => if name ∈ inherited then .builtin else .undefined

/-- `obj[name] = v` on a record of the codec's own. Assigning to `__proto__` at most replaces
the prototype; it makes no property. -/
def assign (props : List (String × Js)) (name : String) (v : Js) : List (String × Js) :=
  if name = "__proto__" then props
  else if (props.lookup name).isSome then props.map fun p => if p.1 = name then (name, v) else p
  else props ++ [(name, v)]

/-- Property after property. -/
def assignAll (props : List (String × Js)) : List (String × Js) → List (String × Js)
  | [] => props
  | p :: ps => assignAll (assign props p.1 p.2) ps

/-- Under distinct names every property is there but `__proto__`. -/
theorem assignAll_eq : ∀ {ps props : List (String × Js)}, (ps.map Prod.fst).Nodup →
    (∀ p ∈ ps, props.lookup p.1 = none) →
    assignAll props ps = props ++ ps.filter fun p => p.1 ≠ "__proto__"
  | [], props, _, _ => by simp [assignAll]
  | (name, v) :: ps, props, hnd, hnew => by
    rw [map_cons, nodup_cons] at hnd
    obtain ⟨hname, hnd⟩ := hnd
    have hfre : props.lookup name = none := hnew (name, v) mem_cons_self
    have htail : ∀ p ∈ ps, props.lookup p.1 = none := fun p hp =>
      hnew p (mem_cons_of_mem _ hp)
    rw [assignAll]
    by_cases hprt : name = "__proto__"
    · have hass : assign props name v = props := if_pos hprt
      rw [hass, assignAll_eq hnd htail, filter_cons_of_neg (by simpa using hprt)]
    · have hass : assign props name v = props ++ [(name, v)] := by
        rw [assign, if_neg hprt, hfre]
        rfl
      have hlk : ∀ p ∈ ps, (props ++ [(name, v)]).lookup p.1 = none := by
        intro p hp
        have hmem : p.1 ∈ ps.map Prod.fst := mem_map_of_mem hp
        have hne : p.1 ≠ name := fun heq => hname (heq ▸ hmem)
        rw [lookup_append, htail p hp]
        simp [hne]
      rw [hass, assignAll_eq hnd hlk, filter_cons_of_pos (by simpa using hprt),
        append_assoc]
      rfl

theorem lookup_filter_of_nodup : ∀ {ps : List (String × Js)} {p : String × Js} {q : String → Bool},
    (ps.map Prod.fst).Nodup → p ∈ ps →
    (ps.filter fun p => q p.1).lookup p.1 = if q p.1 then some p.2 else none
  | (name, v) :: ps, p, q, hnd, hp => by
    rw [map_cons, nodup_cons] at hnd
    rcases mem_cons.mp hp with rfl | hp
    · -- the first of the list; no other has its name
      cases hq : q name with
      | true => simp [hq]
      | false =>
        rw [filter_cons_of_neg (by simp [hq]), if_neg (by simp), lookup_eq_none_iff]
        intro d hd
        have hmem : d.1 ∈ ps.map Prod.fst := mem_map_of_mem (mem_of_mem_filter hd)
        have hne : name ≠ d.1 := fun heq => hnd.1 (heq ▸ hmem)
        simpa using hne
    · have hmem : p.1 ∈ ps.map Prod.fst := mem_map_of_mem ‹p ∈ ps›
      have hne : p.1 ≠ name := fun heq => hnd.1 (heq ▸ hmem)
      have ih := lookup_filter_of_nodup (q := q) hnd.2 hp
      cases hq : q name with
      | true => rw [filter_cons_of_pos (by simp [hq]), lookup_cons, beq_false_of_ne hne, ih]
      | false => rw [filter_cons_of_neg (by simp [hq]), ih]

/-- What a record of the codec's own has under one of the names it was made of. -/
theorem lookup_assignAll {ps : List (String × Js)} {p : String × Js} (h : (ps.map Prod.fst).Nodup)
    (hp : p ∈ ps) :
    (assignAll [] ps).lookup p.1 = if p.1 = "__proto__" then none else some p.2 := by
  rw [assignAll_eq h (by simp), nil_append,
    lookup_filter_of_nodup (q := fun name => name ≠ "__proto__") h hp]
  by_cases hprt : p.1 = "__proto__" <;> simp [hprt]

/-! ## The engine -/

/-- The byte order mark. -/
def bom : Bytes := [0xEF, 0xBB, 0xBF]

/-- What the JavaScript engine brings along. -/
structure Runtime where
  /-- `new TextDecoder().decode`. -/
  decodeText : Bytes → JsString
  /-- Well-formed UTF-8 is read as it stands, but for a byte order mark in front of it. -/
  decodeText_valid : ∀ bs, Utf8.valid bs = true →
    (decodeText bs).utf8 = if bom <+: bs then bs.drop 3 else bs
  /-- Whether two numbers, at least one of them a float, are the same key of a `Map`. -/
  sameNumber : Js → Js → Bool

/-- A runtime whose `TextDecoder` reads malformed text as nothing, and for which floats are the
same if they have the same bits. -/
def Runtime.plain : Runtime where
  decodeText bs :=
    if h : Utf8.valid bs = true then
      if hbom : bom <+: bs then
        ⟨bs.drop 3, by
          obtain ⟨rest, rfl⟩ := hbom
          exact (Utf8.valid_append_iff (by decide)).mp h⟩
      else ⟨bs, h⟩
    else ⟨[], by decide⟩
  decodeText_valid bs h := by
    rw [dif_pos h]
    split <;> rfl
  sameNumber
    | .float b, .float b' => b == b'
    | _, _ => false

/-- `SameValueZero`, by which a `Map` compares keys. Two objects are never the same: every
value the decoder makes is a new one. -/
def sameKey (R : Runtime) : Js → Js → Bool
  | .undefined, .undefined => true
  | .null, .null => true
  | .bool b, .bool b' => b == b'
  | .number n, .number n' => n == n'
  | .number n, .float b => R.sameNumber (.number n) (.float b)
  | .float b, .number n => R.sameNumber (.float b) (.number n)
  | .float b, .float b' => R.sameNumber (.float b) (.float b')
  | .bigint n, .bigint n' => n == n'
  | .string s, .string s' => s == s'
  | _, _ => false

/-- `map.set(key, value)`: a key that is there keeps its place. -/
def mapSet (R : Runtime) (entries : List (Js × Js)) (key value : Js) : List (Js × Js) :=
  if entries.any (fun e => sameKey R e.1 key) then
    entries.map fun e => if sameKey R e.1 key then (e.1, value) else e
  else entries ++ [(key, value)]

/-- Entry after entry. -/
def mapSetAll (R : Runtime) (entries : List (Js × Js)) : List (Js × Js) → List (Js × Js)
  | [] => entries
  | e :: es => mapSetAll R (mapSet R entries e.1 e.2) es

/-- No key twice: what the entries of a `Map` satisfy. -/
def DistinctKeys (R : Runtime) (entries : List (Js × Js)) : Prop :=
  entries.Pairwise fun a b => sameKey R a.1 b.1 = false

theorem mapSet_length_le (R : Runtime) (entries : List (Js × Js)) (key value : Js) :
    (mapSet R entries key value).length ≤ entries.length + 1 := by
  unfold mapSet
  split <;> simp

theorem mapSetAll_length_le (R : Runtime) : ∀ (es entries : List (Js × Js)),
    (mapSetAll R entries es).length ≤ entries.length + es.length
  | [], entries => Nat.le_refl _
  | e :: es, entries => by
    have hset := mapSet_length_le R entries e.1 e.2
    have hrest := mapSetAll_length_le R es (mapSet R entries e.1 e.2)
    rw [mapSetAll, length_cons]
    omega

/-- Under distinct keys the entries are what was set, in order. -/
theorem mapSetAll_eq (R : Runtime) : ∀ (es entries : List (Js × Js)),
    DistinctKeys R (entries ++ es) → mapSetAll R entries es = entries ++ es
  | [], entries, _ => (append_nil entries).symm
  | e :: es, entries, h => by
    have hnew : entries.any (fun d => sameKey R d.1 e.1) = false := by
      rw [any_eq_false]
      intro d hd
      have hpair := (pairwise_append.mp h).2.2 d hd e mem_cons_self
      simp [hpair]
    have hset : mapSet R entries e.1 e.2 = entries ++ [e] := if_neg (by simp [hnew])
    have hspl : entries ++ e :: es = entries ++ [e] ++ es := by simp
    rw [mapSetAll, hset, hspl]
    exact mapSetAll_eq R es (entries ++ [e]) (hspl ▸ h)

/-- A map that has kept all the entries has kept them because no key came twice. -/
theorem distinctKeys_of_length (R : Runtime) : ∀ (es entries : List (Js × Js)),
    DistinctKeys R entries → (mapSetAll R entries es).length = entries.length + es.length →
    DistinctKeys R (entries ++ es)
  | [], entries, h, _ => by rwa [append_nil]
  | e :: es, entries, h, hlen => by
    have hrest := mapSetAll_length_le R es (mapSet R entries e.1 e.2)
    rw [mapSetAll, length_cons] at hlen
    have hnew : entries.any (fun d => sameKey R d.1 e.1) = false := by
      by_contra hmerge
      rw [Bool.not_eq_false] at hmerge
      have hsame : (mapSet R entries e.1 e.2).length = entries.length := by
        rw [mapSet, if_pos hmerge, length_map]
      omega
    have hset : mapSet R entries e.1 e.2 = entries ++ [e] := if_neg (by simp [hnew])
    rw [hset] at hlen
    have hdis : DistinctKeys R (entries ++ [e]) := by
      refine pairwise_append.mpr ⟨h, pairwise_singleton .., fun d hd c hc => ?_⟩
      obtain rfl := mem_singleton.mp hc
      simpa using any_eq_false.mp hnew d hd
    have hspl : entries ++ e :: es = entries ++ [e] ++ es := by simp
    rw [hspl]
    refine distinctKeys_of_length R es (entries ++ [e]) hdis ?_
    rw [hlen, length_append, length_singleton]
    omega

/-- What of a key a `Map` looks at. -/
def Js.keyShape : Js → Js
  | .object _ | .array _ | .map _ | .bytes _ => .builtin
  | js => js

theorem sameKey_keyShape (R : Runtime) (a b : Js) :
    sameKey R a.keyShape b.keyShape = sameKey R a b := by
  cases a <;> cases b <;> rfl

/-! ## Integers -/

/-- The two's complement reading of a little-endian word. -/
def signed (bs : Bytes) : Int :=
  if ofLe bs < 2 ^ (8 * bs.length - 1) then ofLe bs else (ofLe bs : Int) - 2 ^ (8 * bs.length)

/-- `setInt32(pos, n, true)` and its like: `n` modulo the width. -/
def intBytes (w : Nat) (n : Int) : Bytes := leBytes w (n % 2 ^ (8 * w)).toNat

theorem ofLe_lt_two_pow (bs : Bytes) : ofLe bs < 2 ^ (8 * bs.length) := by
  have h := ofLe_lt bs
  rwa [show (256 : Nat) = 2 ^ 8 from rfl, ← Nat.pow_mul] at h

theorem intBytes_ofLe (bs : Bytes) : intBytes bs.length (ofLe bs) = bs := by
  have hlt : ((ofLe bs : Nat) : Int) < 2 ^ (8 * bs.length) := by exact_mod_cast ofLe_lt_two_pow bs
  rw [intBytes, Int.emod_eq_of_lt (Int.natCast_nonneg _) hlt, Int.toNat_natCast, leBytes_ofLe]

theorem intBytes_signed (bs : Bytes) : intBytes bs.length (signed bs) = bs := by
  unfold signed
  split
  · exact intBytes_ofLe bs
  · have h := intBytes_ofLe bs
    rw [intBytes] at h ⊢
    rwa [Int.sub_emod_right]

/-- `n | 0`. -/
def int32 (n : Nat) : Int :=
  if n % 2 ^ 32 < 2 ^ 31 then (n % 2 ^ 32 : Nat) else (n % 2 ^ 32 : Nat) - (2 ^ 32 : Int)

/-- `offset + (index >> 3)`: the byte both bitfield helpers go to. A shift is made on 32 bits
with a sign, so an index of `2 ^ 31` or more goes half a gigabyte back. -/
def bitByte (offset index : Nat) : Int := offset + int32 index / 8

theorem bitByte_low {offset index : Nat} (h : index < 2 ^ 31) :
    bitByte offset index = (offset + index / 8 : Nat) := by
  have hint : int32 index = index := by
    rw [int32, Nat.mod_eq_of_lt (by omega), if_pos h]
  rw [bitByte, hint]
  omega

theorem bitByte_high (offset : Nat) {index : Nat} (h : 2 ^ 31 ≤ index) (hlt : index < 2 ^ 32) :
    bitByte offset index < offset := by
  have hint : int32 index = (index : Int) - 2 ^ 32 := by
    rw [int32, Nat.mod_eq_of_lt hlt, if_neg (by omega)]
  rw [bitByte, hint]
  omega

/-! ## Which JavaScript value shows which Arrow value -/

/-- How a record and a missing value are looked at. -/
structure View where
  /-- What the record has under a name. -/
  get : List (String × Js) → String → Option Js
  /-- What stands for a null. -/
  absent : Js → Prop

/-- As the encoder looks at what it is given. -/
def View.given : View where
  get props name := some (property props name)
  absent js := js.isNullish = true

/-- As one looks at what the decoder has made. -/
def View.made : View where
  get props name := props.lookup name
  absent js := js = .null

/-- A fixed-width value, by its bytes. -/
def ShowsScalar (wireType : WireTypeId) (js : Js) (bs : Bytes) : Prop :=
  match wireType with
  | .int8 | .int16 | .int32 | .date32 | .time32 | .intervalMonths => js = .number (signed bs)
  | .int64 | .date64 | .time64 | .timestampNano | .durationNano => js = .bigint (signed bs)
  | .uint8 | .uint16 | .halfFloat | .uint32 => js = .number (ofLe bs)
  | .uint64 => js = .bigint (ofLe bs)
  | .float32 | .float64 => js = .float bs
  | .decimal128 | .decimal256 => js = .bytes bs
  | .intervalDayTime => ∃ props, js = .object props ∧
    property props "days" = .number (signed (bs.take 4)) ∧
    property props "milliseconds" = .number (signed (bs.drop 4))
  | .intervalMonthDayNano => ∃ props, js = .object props ∧
    property props "months" = .number (signed (bs.take 4)) ∧
    property props "days" = .number (signed ((bs.drop 4).take 4)) ∧
    property props "nanoseconds" = .bigint (signed (bs.drop 8))
  | _ => False

def SlotShows (V : View) (shows : Js → Value → Prop) (js : Js) (v : Value) : Prop :=
  if v.isNull then V.absent js else shows js v

section

variable (R : Runtime) (V : View)

mutual

/-- The JavaScript value stands for the Arrow value. A record shows a struct only where it has
a property for each field, so no two fields share a name. -/
def Shows : FieldDescriptor → Js → Value → Prop
  | ⟨_, wireType, _, element, mapKey, mapValue, fields, _⟩, js, v =>
    match wireType with
    | .bool => ∃ b, js = .bool b ∧ v = .bool b
    | .string | .largeString | .stringView => ∃ s t, js = .string s ∧ v = .binary t s.utf8
    | .binary | .largeBinary | .binaryView => ∃ data t, js = .bytes data ∧ v = .binary t data
    | .struct => ∃ props vs, js = .object props ∧ v = .struct vs ∧
      (fields.map FieldDescriptor.name).Nodup ∧
      List.Forall₂ (fun p v => ∃ j, V.get props p.1 = some j ∧ SlotShows V p.2 j v)
        (showsFields fields) vs
    | .list | .largeList | .fixedSizeList => ∃ items vs, js = .array items ∧ v = .list vs ∧
      List.Forall₂ (SlotShows V (showsOption element)) items vs
    | .map => ∃ entries ks vs, js = .map entries ∧ v = .map ks vs ∧ DistinctKeys R entries ∧
      List.Forall₂ (showsOption mapKey) (entries.map Prod.fst) ks ∧
      List.Forall₂ (SlotShows V (showsOption mapValue)) (entries.map Prod.snd) vs
    | .sparseUnion | .denseUnion => ∃ code u p, v = .union code u ∧
      (showsFields fields)[code.toNat]? = some p ∧ p.2 js u
    | wireType => ∃ fv : FixedValue, v = .fixed fv ∧ ShowsScalar wireType js fv.repr

def showsFields : List FieldDescriptor → List (String × (Js → Value → Prop))
  | [] => []
  | fd :: fds => (fd.name, Shows fd) :: showsFields fds

def showsOption : Option FieldDescriptor → Js → Value → Prop
  | none, _, _ => False
  | some fd, js, v => Shows fd js v

end

/-- The record stands for the row. -/
def ShowsRow (sd : SchemaDescriptor) (props : List (String × Js)) (row : Row) : Prop :=
  (sd.map FieldDescriptor.name).Nodup ∧
    List.Forall₂ (fun p v => ∃ j, V.get props p.1 = some j ∧ SlotShows V p.2 j v)
      (showsFields R V sd) row

end

theorem showsFields_eq_map (R : Runtime) (V : View) : ∀ fds, showsFields R V fds =
    fds.map fun fd => (fd.name, Shows R V fd)
  | [] => rfl
  | fd :: fds => by rw [showsFields, showsFields_eq_map R V fds]; rfl

theorem Shows.isNullish_eq {R : Runtime} {V : View} {fd : FieldDescriptor} {js : Js} {v : Value}
    (h : Shows R V fd js v) : js.isNullish = false := by
  induction fd generalizing js v with
  | mk _ wireType _ _ _ _ _ _ _ _ _ ih =>
    cases wireType with
    | bool =>
      obtain ⟨b, rfl, -⟩ := h
      rfl
    | string | largeString | stringView | binary | largeBinary | binaryView | struct | list
    | largeList | fixedSizeList =>
      obtain ⟨_, _, rfl, _⟩ := h
      rfl
    | map =>
      obtain ⟨_, _, _, rfl, -⟩ := h
      rfl
    | sparseUnion | denseUnion =>
      obtain ⟨_, u, p, rfl, hp, hu⟩ := h
      rw [showsFields_eq_map, getElem?_map, Option.map_eq_some_iff] at hp
      obtain ⟨f, hf, rfl⟩ := hp
      exact ih f (mem_of_getElem? hf) hu
    | unknown | fixedSizeBinary =>
      obtain ⟨fv, rfl, h⟩ := h
      exact h.elim
    | intervalDayTime | intervalMonthDayNano =>
      obtain ⟨fv, rfl, _, rfl, -⟩ := h
      rfl
    | _ =>
      obtain ⟨fv, rfl, rfl⟩ := h
      rfl

/-- How a value is shown leaves a `Map` no choice about it as a key. -/
theorem Shows.keyShape_eq {R : Runtime} {V V' : View} {fd : FieldDescriptor} {js js' : Js}
    {v : Value} (h : Shows R V fd js v) (h' : Shows R V' fd js' v) :
    js.keyShape = js'.keyShape := by
  induction fd generalizing js js' v with
  | mk _ wireType _ _ _ _ _ _ _ _ _ ih =>
    cases wireType with
    | bool =>
      obtain ⟨b, rfl, rfl⟩ := h
      obtain ⟨_, rfl, hb⟩ := h'
      cases hb
      rfl
    | string | largeString | stringView =>
      obtain ⟨s, t, rfl, rfl⟩ := h
      obtain ⟨s', t', rfl, hs⟩ := h'
      obtain ⟨_, _⟩ := s
      obtain ⟨_, _⟩ := s'
      cases hs
      rfl
    | binary | largeBinary | binaryView =>
      obtain ⟨_, t, rfl, -⟩ := h
      obtain ⟨_, t', rfl, -⟩ := h'
      rfl
    | struct =>
      obtain ⟨props, vs, rfl, -⟩ := h
      obtain ⟨props', vs', rfl, -⟩ := h'
      rfl
    | list | largeList | fixedSizeList =>
      obtain ⟨_, vs, rfl, -⟩ := h
      obtain ⟨_, vs', rfl, -⟩ := h'
      rfl
    | map =>
      obtain ⟨_, _, vs, rfl, -⟩ := h
      obtain ⟨_, _, vs', rfl, -⟩ := h'
      rfl
    | sparseUnion | denseUnion =>
      obtain ⟨_, u, p, rfl, hp, hu⟩ := h
      obtain ⟨_, _, _, hv, hp', hu'⟩ := h'
      cases hv
      rw [showsFields_eq_map, getElem?_map, Option.map_eq_some_iff] at hp hp'
      obtain ⟨f, hf, rfl⟩ := hp
      obtain ⟨_, hf', rfl⟩ := hp'
      rw [hf] at hf'
      cases hf'
      exact ih f (mem_of_getElem? hf) hu hu'
    | unknown | fixedSizeBinary =>
      obtain ⟨fv, rfl, h⟩ := h
      exact h.elim
    | intervalDayTime | intervalMonthDayNano =>
      obtain ⟨fv, rfl, props, rfl, -⟩ := h
      obtain ⟨fv', hv, props', rfl, -⟩ := h'
      rfl
    | _ =>
      -- every other wire type leaves one JavaScript value to the bytes
      obtain ⟨fv, rfl, rfl⟩ := h
      obtain ⟨fv', hv, rfl⟩ := h'
      cases hv
      rfl

/-! ## What the decoder can make a value of -/

/-- The wire types that are strings in TypeScript. -/
def isText : WireTypeId → Bool
  | .string | .largeString | .stringView => true
  | _ => false

/-- No two of the keys are the same to a `Map`. -/
def KeysDistinct (R : Runtime) (shows : Js → Value → Prop) (ks : List Value) : Prop :=
  ks.Pairwise fun k k' => ∀ js js', shows js k → shows js' k' → sameKey R js js' = false

section

variable (R : Runtime)

mutual

/-- Every string in the value is UTF-8 without a byte order mark in front, no record has two
fields of one name or a field named `__proto__`, and no map has two keys that are one. -/
def Clean : FieldDescriptor → Value → Prop
  | ⟨_, wireType, _, element, mapKey, mapValue, fields, _⟩, v =>
    match v with
    | .binary _ data => isText wireType = true → Utf8.valid data = true ∧ ¬ bom <+: data
    | .struct vs => (fields.map FieldDescriptor.name).Nodup ∧
      "__proto__" ∉ fields.map FieldDescriptor.name ∧
      List.Forall₂ (fun c v => v.isNull = false → c v) (cleanFields fields) vs
    | .list vs => ∀ v ∈ vs, v.isNull = false → cleanOption element v
    | .map ks vs => KeysDistinct R (showsOption R .made mapKey) ks ∧
      (∀ k ∈ ks, cleanOption mapKey k) ∧ ∀ v ∈ vs, v.isNull = false → cleanOption mapValue v
    | .union code u => ∀ c, (cleanFields fields)[code.toNat]? = some c → c u
    | _ => True

def cleanFields : List FieldDescriptor → List (Value → Prop)
  | [] => []
  | fd :: fds => Clean fd :: cleanFields fds

def cleanOption : Option FieldDescriptor → Value → Prop
  | none, _ => True
  | some fd, v => Clean fd v

end

/-- A row whose values are clean. It is a record itself. -/
def CleanRow (sd : SchemaDescriptor) (row : Row) : Prop :=
  (sd.map FieldDescriptor.name).Nodup ∧ "__proto__" ∉ sd.map FieldDescriptor.name ∧
    List.Forall₂ (fun c v => v.isNull = false → c v) (cleanFields R sd) row

end

theorem cleanFields_eq_map (R : Runtime) : ∀ fds, cleanFields R fds = fds.map (Clean R)
  | [] => rfl
  | fd :: fds => by rw [cleanFields, cleanFields_eq_map R fds]; rfl

end Fletcher.Ts
