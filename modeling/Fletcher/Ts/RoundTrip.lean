import Fletcher.Ts.DecoderSpec
import Fletcher.Bridge.CodecDecode

/-!
# The TypeScript codec against the C++ one

Both codecs are held against the wire format, so here they meet. `encodePositional_roundTrip_iff`
is about values: which of them the TypeScript encoder writes as `Codec::EncodeRow` does and the
TypeScript decoder reads back. `decodePositional_agrees_iff` is about bytes: on which of them the
TypeScript decoder and `Codec::DecodeRow` agree, well formed or not.

For the second the bytes that `DecodeRow` refuses need a notion of their own. `rowReach` follows
the layout of a row through arbitrary bytes, by the counts, lengths, codes and bits it finds there,
and gives up only where a word is not there to be read. The TypeScript decoder returns exactly
where it does not give up (`decodePositional_returns_iff`).
-/

namespace Fletcher.Ts

open Lib Arrow Bridge Cursor List

variable {y : ReadCursor Unit}

/-! ## Values -/

theorem Describes.fixedSizesFit {t : DataType} {fd : FieldDescriptor} (h : Describes t fd) :
    fixedSizesFit t = true := by
  refine h.induction rfl ?fixed rfl ?struct ?list ?fixedSizeList ?map ?union <;> intros
  case fixed => rfl
  case struct ih =>
    rw [Bridge.fixedSizesFit, sizesBelow, fieldsSizesBelow_iff]
    exact forall_mem_of_forall₂ ih
  case list ih => exact ih
  case fixedSizeList ih =>
    rw [Bridge.fixedSizesFit, sizesBelow, Bool.and_eq_true, decide_eq_true_eq]
    exact ⟨by omega, ih⟩
  case map ihk ihv =>
    rw [Bridge.fixedSizesFit, sizesBelow, Bool.and_eq_true]
    exact ⟨ihk, ihv⟩
  case union ih =>
    rw [Bridge.fixedSizesFit, sizesBelow, fieldsSizesBelow_iff]
    exact forall_mem_of_forall₂ ih

theorem DescribesSchema.supported {schema : Schema} {sd : SchemaDescriptor}
    (h : DescribesSchema schema sd) : ∀ f ∈ schema, f.type.supported = true :=
  forall_mem_of_forall₂ ((describesAll_iff.mp h.2).imp fun _ _ hd => hd.supported)

/-- **Which rows TypeScript writes as C++ does and reads back.** Whatever the caller shows for a
row, the encoder gives `EncodeRow`'s bytes and the decoder gives the row back, if and only if the
row fits the wire, no null stands in a slot of index `2 ^ 31` or above, the row is clean, and no
bit of such an index is misread. -/
theorem encodePositional_roundTrip_iff {A : Api} (hA : A.Lawful) (R : Runtime) {schema : Schema}
    {sd : SchemaDescriptor} {values : List RowScalar} {props : List (String × Js)}
    (hd : DescribesSchema schema sd) (ht : ∀ f ∈ schema, encoderSupports f.type = true)
    (hv : RowValid schema values) (hs : ShowsRow R .given sd props (rowOf schema values)) :
    (∃ bytes, encodeRow A schema values = .ok bytes ∧ encodePositional sd props = .ok bytes ∧
        ∃ result, decodePositional R sd bytes = .ok result ∧
          ShowsRow R .made sd result (rowOf schema values)) ↔
      (∀ v ∈ rowOf schema values, v.Encodable) ∧
        ¬ AnyHighNull (rowRuns schema (rowOf schema values)) ∧
        CleanRow R sd (rowOf schema values) ∧
        BitsRead (wireRow schema (rowOf schema values)) (rowRuns schema (rowOf schema values)) := by
  have hsupported := hd.supported
  have hfit : ∀ f ∈ schema, fixedSizesFit f.type = true :=
    forall_mem_of_forall₂ ((describesAll_iff.mp hd.2).imp fun _ _ hfd => hfd.fixedSizesFit)
  have hslots : (∀ v ∈ rowOf schema values, v.Encodable) →
      Forall₂ (fun f v => SlotOk f.type v) schema (rowOf schema values) :=
    fun henc => forall₂_and_right (rowOf_slots hsupported hv) henc
  have hrow := fun henc => wireRow_denotes hsupported (hslots henc)
  constructor
  · rintro ⟨bytes, hcpp, hts, hback⟩
    obtain ⟨henc, rfl⟩ := (encodeRow_ok_iff hA hsupported hfit hv).mp hcpp
    have hnulls := (encodePositional_puts hd ht (hslots henc) hs).mp hts
    exact ⟨henc, hnulls, (decodePositional_shows_iff hd (hrow henc)).mp hback⟩
  · rintro ⟨henc, hnulls, hgood⟩
    refine ⟨_, encodeRow_eq_wireRow hA hsupported hv henc, ?_, ?_⟩
    · exact (encodePositional_puts hd ht (hslots henc) hs).mpr hnulls
    · exact (decodePositional_shows_iff hd (hrow henc)).mpr hgood

/-- A record with one string. -/
def labelSchema : Schema := [⟨"label", .var .string, true⟩]

def labelDescriptor : SchemaDescriptor := [⟨"label", .string, true, none, none, none, [], none⟩]

theorem describes_label : DescribesSchema labelSchema labelDescriptor :=
  ⟨by decide, _, _, rfl, rfl, rfl⟩

/-- A label of the given text. -/
def labelRow (text : Bytes) : List RowScalar := [⟨.var .string, .binary .string text⟩]

theorem labelRow_valid (text : Bytes) : RowValid labelSchema (labelRow text) :=
  .cons ⟨fun _ => rfl, rfl⟩ .nil

def labelProps (text : JsString) : List (String × Js) := [("label", .string text)]

theorem labelProps_show (R : Runtime) (text : JsString) :
    ShowsRow R .given labelDescriptor (labelProps text) (rowOf labelSchema (labelRow text.utf8)) :=
  ⟨by decide, .cons ⟨.string text, rfl, text, .string, rfl, rfl⟩ .nil⟩

theorem encodePositional_roundTrip_label :
    ∃ bytes, encodeRow .permissive labelSchema (labelRow [111, 107]) = .ok bytes ∧
      encodePositional labelDescriptor (labelProps ⟨[111, 107], by decide⟩) = .ok bytes ∧
      ∃ result, decodePositional .plain labelDescriptor bytes = .ok result ∧
        ShowsRow .plain .made labelDescriptor result (rowOf labelSchema (labelRow [111, 107])) := by
  -- the only bitfield has one bit
  have hshort : ∀ r ∈ rowRuns labelSchema (rowOf labelSchema (labelRow [111, 107])),
      r.2.length = 1 := by
    intro r hr
    obtain rfl := mem_singleton.mp hr
    rfl
  refine (encodePositional_roundTrip_iff Api.permissive_lawful .plain describes_label (by decide)
    (labelRow_valid _) (labelProps_show .plain ⟨[111, 107], by decide⟩)).mpr
    ⟨?_, ?_, ⟨by decide, by decide, .cons (fun _ _ => ⟨by decide, by decide⟩) .nil⟩, ?_⟩
  · intro v hv
    obtain rfl := mem_singleton.mp hv
    exact (by decide : 2 < 2 ^ 32)
  · rintro ⟨r, hr, i, hi, hflag⟩
    have hlt := (List.getElem?_eq_some_iff.mp hflag).1
    have hone := hshort r hr
    omega
  · intro r hr i _ hi hflag
    have hlt := (List.getElem?_eq_some_iff.mp hflag).1
    have hone := hshort r hr
    omega

/-- A label that starts with a byte order mark comes back without it. -/
theorem decodePositional_loses_bom :
    ∃ bytes, encodeRow .permissive labelSchema (labelRow (bom ++ [97])) = .ok bytes ∧
      encodePositional labelDescriptor (labelProps ⟨bom ++ [97], by decide⟩) = .ok bytes ∧
      decodePositional .plain labelDescriptor bytes = .ok (labelProps ⟨[97], by decide⟩) :=
  ⟨_, rfl, rfl, rfl⟩

/-! ## Bytes -/

section Reach

variable (data : Bytes)

/-- Move on without looking. -/
def skip (n : Nat) : ReadCursor Unit := fun pos => .ok ((), pos + n)

def reachWords : List Nat → ReadCursor Unit
  | [] => pure ()
  | w :: ws => do
    let _ ← readWord data w
    reachWords ws

def reachFixed (t : FixedType) : ReadCursor Unit :=
  match t with
  | .uint8 | .decimal128 _ _ | .decimal256 _ _ => skip t.width
  | t => reachWords data t.members

def reachSlot (bfStart : Nat) (x : ReadCursor Unit) (i : Nat) : ReadCursor Unit :=
  if isNullBit data bfStart i then pure () else x

def reachSlots (bfStart : Nat) : List (ReadCursor Unit) → Nat → ReadCursor Unit
  | [], _ => pure ()
  | x :: xs, i => do
    reachSlot data bfStart x i
    reachSlots bfStart xs (i + 1)

def reachRun (xs : List (ReadCursor Unit)) : ReadCursor Unit := fun pos =>
  reachSlots data pos xs 0 (pos + bitfieldBytes xs.length)

def reachKeys : List (ReadCursor Unit) → ReadCursor Unit
  | [] => pure ()
  | x :: xs => do
    x
    reachKeys xs

mutual

/-- How far a value reaches by what its bytes say, whether or not they are all there. Only the
words that are read through a view have to be. -/
def reach : DataType → ReadCursor Unit
  | .bool => skip 1
  | .fixed t => reachFixed data t
  | .var _ => do
    let len ← readU32 data
    skip len
  | .struct fields => reachRun data (reaches fields)
  | .list _ ⟨_, t, _⟩ => do
    let count ← readU32 data
    reachRun data (List.replicate count (reach t))
  | .fixedSizeList ⟨_, t, _⟩ n => reachRun data (List.replicate n (reach t))
  | .map ⟨_, kt, _⟩ ⟨_, vt, _⟩ _ => do
    let count ← readU32 data
    reachKeys (List.replicate count (reach kt))
    reachRun data (List.replicate count (reach vt))
  | .union _ fields codes => do
    let word ← readWord data 1
    match childId codes (word.getD 0 0) with
    | some k =>
      match (reaches fields)[k]? with
      | some x => x
      | none => fail .rangeError
    | none => fail .rangeError
  | .dictionary _ _ _ | .unsupported _ => fail .rangeError

def reaches : List Field → List (ReadCursor Unit)
  | [] => []
  | ⟨_, t, _⟩ :: fs => reach t :: reaches fs

end

end Reach

/-- Where a row ends by what its bytes say, if every word of it is there. -/
def rowReach (schema : Schema) (data : Bytes) : Option Nat :=
  match reachRun data (reaches data schema) 0 with
  | .ok (_, pos) => some pos
  | .error _ => none

section Tracks

variable {R : Runtime} {data : Bytes} {α β : Type}

/-- One cursor returns where the other does, and ends where it does. -/
def Tracks (x : ReadCursor α) (y : ReadCursor Unit) : Prop :=
  ∀ pos pos', (∃ a, x pos = .ok (a, pos')) ↔ y pos = .ok ((), pos')

theorem tracks_pure (a : α) : Tracks (pure a) (pure ()) := by
  intro _ _
  simp

theorem Tracks.bind {x : ReadCursor α} {f : α → ReadCursor β}
    {g : ReadCursor Unit} (hx : Tracks x y) (hf : ∀ a, Tracks (f a) g) :
    Tracks (x >>= f) (y >>= fun _ => g) := by
  intro pos pos'
  rw [bind_eq_ok]
  constructor
  · rintro ⟨b, hb⟩
    obtain ⟨a, mid, ha, hb⟩ := bind_eq_ok.mp hb
    exact ⟨(), mid, (hx pos mid).mp ⟨a, ha⟩, (hf a mid pos').mp ⟨b, hb⟩⟩
  · rintro ⟨_, mid, hy, hg⟩
    obtain ⟨a, ha⟩ := (hx pos mid).mpr hy
    obtain ⟨b, hb⟩ := (hf a mid pos').mpr hg
    exact ⟨b, bind_eq_ok.mpr ⟨a, mid, ha, hb⟩⟩

/-- The same step on both sides. -/
theorem Tracks.bind_same {x : ReadCursor α} {f : α → ReadCursor β} {g : α → ReadCursor Unit}
    (hf : ∀ a, Tracks (f a) (g a)) : Tracks (x >>= f) (x >>= g) := by
  intro _ pos'
  rw [bind_eq_ok]
  constructor
  · rintro ⟨b, hb⟩
    obtain ⟨a, mid, ha, hb⟩ := bind_eq_ok.mp hb
    exact ⟨a, mid, ha, (hf a mid pos').mp ⟨b, hb⟩⟩
  · rintro ⟨a, mid, ha, hg⟩
    obtain ⟨b, hb⟩ := (hf a mid pos').mpr hg
    exact ⟨b, bind_eq_ok.mpr ⟨a, mid, ha, hb⟩⟩

/-- A result that is only dressed up. -/
theorem Tracks.map {x : ReadCursor α} (hx : Tracks x y) (g : α → β) :
    Tracks (x >>= fun a => pure (g a)) y := by
  intro pos pos'
  rw [← hx pos pos']
  constructor
  · rintro ⟨b, hb⟩
    obtain ⟨a, _, ha, hret⟩ := bind_eq_ok.mp hb
    obtain ⟨rfl, rfl⟩ := pure_eq_ok.mp hret
    exact ⟨a, ha⟩
  · rintro ⟨a, ha⟩
    exact ⟨g a, bind_eq_ok.mpr ⟨a, pos', ha, rfl⟩⟩

theorem tracks_slot {x : ReadCursor Js} (h : Tracks x y) (off i : Nat) :
    Tracks (decodeSlot data off x i) (reachSlot data off y i) := by
  unfold decodeSlot reachSlot
  split
  · exact tracks_pure Js.null
  · exact h

theorem tracks_slots {off : Nat} : ∀ {xs : List (ReadCursor Js)} {ys : List (ReadCursor Unit)}
    {i : Nat}, Forall₂ Tracks xs ys → Tracks (decodeSlots data off xs i) (reachSlots data off ys i)
  | [], [], i, .nil => tracks_pure []
  | x :: xs, y :: ys, i, .cons hx hxs => by
    have hrest : Tracks (decodeSlots data off xs (i + 1)) (reachSlots data off ys (i + 1)) :=
      tracks_slots hxs
    exact (tracks_slot hx off i).bind fun v => hrest.map (v :: ·)

theorem tracks_run {xs : List (ReadCursor Js)} {ys : List (ReadCursor Unit)}
    (h : Forall₂ Tracks xs ys) : Tracks (decodeRun data xs) (reachRun data ys) := by
  intro _ pos'
  rw [decodeRun, reachRun, ← h.length_eq]
  exact tracks_slots h _ pos'

theorem tracks_keys : ∀ {xs : List (ReadCursor Js)} {ys : List (ReadCursor Unit)},
    Forall₂ Tracks xs ys → Tracks (decodeKeys xs) (reachKeys ys)
  | [], [], .nil => tracks_pure []
  | x :: xs, y :: ys, .cons hx hxs => by
    have hrest : Tracks (decodeKeys xs) (reachKeys ys) := tracks_keys hxs
    exact hx.bind fun key => hrest.map (key :: ·)

theorem tracks_word {w : Nat} {g : Bytes → Js} :
    Tracks (readWord data w >>= fun word => pure (g word)) (reachWords data [w]) :=
  .bind_same fun word => tracks_pure (g word)

/-- Word after word. -/
theorem reachWords_cons (w : Nat) (ws : List Nat) :
    reachWords data (w :: ws) = reachWords data [w] >>= fun _ => reachWords data ws := by
  funext pos
  rw [reachWords, reachWords, reachWords, bind_apply, bind_apply, bind_apply]
  cases readWord data w pos <;> rfl

theorem tracks_sized (g : Bytes → Js) :
    Tracks (readU32 data >>= fun len => readBytes data len >>= fun bytes => pure (g bytes))
      (readU32 data >>= fun len => skip len) := by
  refine .bind_same fun len => Tracks.map (fun pos pos' => ?_) g
  constructor
  · rintro ⟨bytes, hby⟩
    cases hby
    rfl
  · intro hskip
    cases hskip
    exact ⟨_, rfl⟩

theorem tracks_fixed {t : FixedType} {wireType : WireTypeId} (ht : wireTypeOf t = some wireType) :
    Tracks (readScalar R data wireType) (reachFixed data t) := by
  cases t with
  | int8 | int16 | int32 | date32 | time32 | intervalMonths | int64 | date64 | time64 | uint16
  | halfFloat | uint32 | uint64 | float | double =>
    cases ht
    exact tracks_word
  | timestamp unit _ =>
    cases unit <;> cases ht
    exact tracks_word
  | duration unit =>
    cases unit <;> cases ht
    exact tracks_word
  | uint8 =>
    cases ht
    intro pos pos'
    constructor
    · rintro ⟨js, hjs⟩
      cases hjs
      rfl
    · intro hskip
      cases hskip
      exact ⟨_, rfl⟩
  | decimal128 | decimal256 =>
    cases ht
    intro pos pos'
    constructor
    · rintro ⟨js, hjs⟩
      cases hjs
      rfl
    · intro hskip
      cases hskip
      exact ⟨_, rfl⟩
  | intervalDayTime =>
    cases ht
    show Tracks _ (reachWords data [4, 4])
    rw [reachWords_cons]
    exact tracks_word.bind fun days => tracks_word.map _
  | intervalMonthDayNano =>
    cases ht
    show Tracks _ (reachWords data [4, 4, 8])
    rw [reachWords_cons, reachWords_cons 4 [8]]
    exact tracks_word.bind fun months => tracks_word.bind fun days => tracks_word.map _
  | fixedSizeBinary w => cases ht

theorem reaches_eq_map : ∀ fields, reaches data fields = fields.map fun f => reach data f.type
  | [] => rfl
  | ⟨_, t, _⟩ :: fs => by rw [reaches, reaches_eq_map fs]; rfl

theorem tracks_fields {fields : List Field} {fds : List FieldDescriptor}
    (h : Forall₂ (fun f fd => Tracks (decodeValue R data fd) (reach data f.type)) fields fds) :
    Forall₂ Tracks (fds.map (decodeValue R data)) (reaches data fields) := by
  rw [reaches_eq_map, forall₂_map_left_iff, forall₂_map_right_iff]
  exact h.flip

theorem readWord_length {w pos pos' : Nat} {word : Bytes}
    (h : readWord data w pos = .ok (word, pos')) : word.length = w := by
  unfold readWord at h
  split at h
  · cases h
    simp only [length_take, length_drop]
    omega
  · cases h

theorem tracks_union {fields : List Field} {fds : List FieldDescriptor} (mode : UnionMode)
    (hcnt : fields.length ≤ 128)
    (h : Forall₂ Tracks (fds.map (decodeValue R data)) (reaches data fields)) :
    Tracks (decodeUnion data (decodeFields R data fds))
      (reach data (.union mode fields ((List.range fields.length).map UInt8.ofNat))) := by
  have hlen : fds.length = fields.length := by
    have hboth := h.length_eq
    rwa [length_map, reaches_eq_map, length_map] at hboth
  intro pos pos'
  rw [reach, decodeUnion, bind_eq_ok]
  have hch : ∀ word mid, readWord data 1 pos = .ok (word, mid) →
      ((∃ js, unionChild (decodeFields R data fds) (signed word) mid = .ok (js, pos')) ↔
        (match childId ((List.range fields.length).map UInt8.ofNat) (word.getD 0 0) with
          | some k =>
            match (reaches data fields)[k]? with
            | some x => x
            | none => fail .rangeError
          | none => fail .rangeError : ReadCursor Unit) mid = .ok ((), pos')) := by
    intro word mid hword
    obtain ⟨c, rfl⟩ := length_eq_one_iff.mp (readWord_length hword)
    rw [childId_range hcnt, getD_cons_zero]
    by_cases hc : c.toNat < fields.length
    · -- a code in range, on either side
      rw [if_pos hc, signed_byte (by omega)]
      have hfd : fds[c.toNat]? = some fds[c.toNat] := getElem?_eq_getElem (by omega)
      have hrdr : (fds.map (decodeValue R data))[c.toNat]? =
          some (decodeValue R data fds[c.toNat]) := by rw [getElem?_map, hfd]; rfl
      obtain ⟨y, hy, htr⟩ := forall₂_getElem?_left h hrdr
      have hbra : (decodeFields R data fds)[((c.toNat : Nat) : Int).toNat]? =
          some (fds[c.toNat].name, decodeValue R data fds[c.toNat]) := by
        rw [Int.toNat_natCast, decodeFields_eq_map, getElem?_map, hfd]
        rfl
      rw [unionChild_of_code (Int.natCast_nonneg _) hbra]
      simp only [hy]
      exact htr mid pos'
    · rw [if_neg hc]
      refine iff_of_false ?_ (by simp [fail])
      rintro ⟨js, hjs⟩
      obtain ⟨f, hpos, hf, -⟩ := unionChild_eq_ok hjs
      have hlt := (List.getElem?_eq_some_iff.mp hf).1
      rw [decodeFields_eq_map, length_map, hlen] at hlt
      rcases Nat.lt_or_ge c.toNat 128 with hsmall | hbig
      · rw [signed_byte hsmall] at hlt
        omega
      · have hle : ofLe [c] = c.toNat := by simp [ofLe]
        have hc256 := c.toNat_lt
        rw [signed, hle, if_neg (by simpa using hbig)] at hpos
        simp only [length_singleton] at hpos
        omega
  constructor
  · rintro ⟨js, hjs⟩
    obtain ⟨word, mid, hword, hjs⟩ := bind_eq_ok.mp hjs
    exact ⟨word, mid, hword, (hch word mid hword).mp ⟨js, hjs⟩⟩
  · rintro ⟨word, mid, hword, hrch⟩
    obtain ⟨js, hjs⟩ := (hch word mid hword).mpr hrch
    exact ⟨js, bind_eq_ok.mpr ⟨word, mid, hword, hjs⟩⟩

/-- **The decoder of a value returns where the value's reach can be followed.** -/
theorem decodeValue_tracks {t : DataType} {fd : FieldDescriptor} (hd : Describes t fd) :
    Tracks (decodeValue R data fd) (reach data t) := by
  refine hd.induction ?bool ?fixed ?var ?struct ?list ?fixedSizeList ?map ?union <;> intros
  case bool =>
    intro _ _
    constructor
    · rintro ⟨_, hjs⟩
      cases hjs
      rfl
    · intro hskip
      cases hskip
      exact ⟨_, rfl⟩
  case fixed ht =>
    rw [decodeValue_scalar (isComposite_wireTypeOf ht)]
    exact tracks_fixed ht
  case var t => cases t <;> exact tracks_sized _
  case struct ih =>
    have hrun : Tracks (decodeRun data _) (reachRun data _) := tracks_run (tracks_fields ih)
    rw [← decodeFields_snd] at hrun
    exact hrun.map _
  case list kind item e ih =>
    have hlist : Tracks (decodeList data (some (decodeValue R data e)))
        (reach data (.list kind item)) :=
      .bind_same fun count => (tracks_run (forall₂_replicate ih count)).map _
    cases kind <;> exact hlist
  case fixedSizeList n _ ih => exact (tracks_run (forall₂_replicate ih n)).map _
  case map ihk ihv =>
    exact .bind_same fun count => (tracks_keys (forall₂_replicate ihk count)).bind fun keys =>
      (tracks_run (forall₂_replicate ihv count)).map _
  case union mode _ _ hcnt ih =>
    have huni := tracks_union mode hcnt (tracks_fields ih)
    cases mode <;> exact huni

/-- The decoder returns exactly where the reach of the row can be followed to its end. -/
theorem decodePositional_returns_iff (R : Runtime) (data : Bytes) {schema : Schema}
    {sd : SchemaDescriptor} (hd : DescribesSchema schema sd) :
    (∃ props, decodePositional R sd data = .ok props) ↔ rowReach schema data ≠ none := by
  have hfs : Forall₂ Tracks (sd.map (decodeValue R data)) (reaches data schema) :=
    tracks_fields ((describesAll_iff.mp hd.2).imp fun _ _ hfd => decodeValue_tracks hfd)
  have hrun : Tracks (decodeRun data _) (reachRun data _) := tracks_run hfs
  rw [← decodeFields_snd] at hrun
  unfold decodePositional rowReach
  constructor
  · rintro ⟨props, hprp⟩
    split at hprp
    · next vals pos hvals =>
      rw [(hrun 0 pos).mp ⟨vals, hvals⟩]
      simp
    · cases hprp
  · intro hrch
    split at hrch
    · next u pos hpos =>
      obtain ⟨vals, hvals⟩ := (hrun 0 pos).mpr hpos
      exact ⟨_, by rw [hvals]⟩
    · exact absurd rfl hrch

end Tracks

/-- **On which bytes TypeScript and C++ agree.** They accept the same bytes and return the same
row, if and only if what `DecodeRow` accepts is clean and has its bits of high index read for
what they are, and what it refuses runs out of bytes at a word that TypeScript reads through a
view. -/
theorem decodePositional_agrees_iff {A : Api} (hA : A.Lawful) (R : Runtime) {schema : Schema}
    {sd : SchemaDescriptor} (hd : DescribesSchema schema sd) (data : Bytes) :
    (((∃ props, decodePositional R sd data = .ok props) ↔
          ∃ row, decodeRow A schema data = .ok row) ∧
        ∀ props row, decodePositional R sd data = .ok props → decodeRow A schema data = .ok row →
          ShowsRow R .made sd props row) ↔
      (∀ row, decodeRow A schema data = .ok row →
          CleanRow R sd row ∧ BitsRead data (rowRuns schema row)) ∧
        ((∀ row, decodeRow A schema data ≠ .ok row) → rowReach schema data = none) := by
  have hsupported := hd.supported
  have hrow : ∀ row, decodeRow A schema data = .ok row →
      ((∃ props, decodePositional R sd data = .ok props ∧ ShowsRow R .made sd props row) ↔
        CleanRow R sd row ∧ BitsRead data (rowRuns schema row)) := fun row hrow =>
    decodePositional_shows_iff hd (parseRow_denotes ((decodeRow_same hA hsupported).mp hrow))
  have hreturns := decodePositional_returns_iff R data hd
  constructor
  · rintro ⟨haccept, hsame⟩
    refine ⟨fun row hok => (hrow row hok).mp ?_, fun hrefuse => ?_⟩
    · obtain ⟨props, hprops⟩ := haccept.mpr ⟨row, hok⟩
      exact ⟨props, hprops, hsame props row hprops hok⟩
    · by_contra hreach
      obtain ⟨row, hok⟩ := haccept.mp (hreturns.mpr hreach)
      exact hrefuse row hok
  · rintro ⟨hgood, hrefused⟩
    refine ⟨⟨fun hprops => ?_, ?_⟩, fun props row hprops hok => ?_⟩
    · by_contra hnone
      exact hreturns.mp hprops (hrefused fun row hok => hnone ⟨row, hok⟩)
    · rintro ⟨row, hok⟩
      obtain ⟨props, hprops, -⟩ := (hrow row hok).mpr (hgood row hok)
      exact ⟨props, hprops⟩
    · obtain ⟨_, hprops', hshow⟩ := (hrow row hok).mpr (hgood row hok)
      rw [hprops] at hprops'
      cases hprops'
      exact hshow

/-- A record with one flag. -/
def flagSchema : Schema := [⟨"flag", .bool, true⟩]

def flagDescriptor : SchemaDescriptor := [⟨"flag", .bool, true, none, none, none, [], none⟩]

theorem describes_flag : DescribesSchema flagSchema flagDescriptor :=
  ⟨by decide, _, _, rfl, rfl, rfl⟩

theorem decodePositional_agrees_flag :
    ((∃ props, decodePositional .plain flagDescriptor [0, 1] = .ok props) ↔
        ∃ row, decodeRow .permissive flagSchema [0, 1] = .ok row) ∧
      ∀ props row, decodePositional .plain flagDescriptor [0, 1] = .ok props →
        decodeRow .permissive flagSchema [0, 1] = .ok row →
        ShowsRow .plain .made flagDescriptor props row := by
  have hrow : decodeRow .permissive flagSchema [0, 1] = .ok [.bool true] := rfl
  refine (decodePositional_agrees_iff Api.permissive_lawful .plain describes_flag [0, 1]).mpr
    ⟨fun row hok => ?_, fun hrefuse => absurd hrow (hrefuse _)⟩
  rw [hrow] at hok
  cases hok
  refine ⟨⟨by decide, by decide, .cons (fun _ => trivial) .nil⟩, fun r hr i flag hi hflag => ?_⟩
  obtain rfl := mem_singleton.mp hr
  have hlt : i < 1 := (List.getElem?_eq_some_iff.mp hflag).1
  omega

/-- A byte too many and a byte too few: TypeScript returns a record both times. -/
theorem decodePositional_returns_malformed :
    (decodePositional .plain flagDescriptor [0, 1, 7] = .ok [("flag", .bool true)] ∧
        ∀ row, decodeRow .permissive flagSchema [0, 1, 7] ≠ .ok row) ∧
      decodePositional .plain flagDescriptor [0] = .ok [("flag", .bool true)] ∧
        ∀ row, decodeRow .permissive flagSchema [0] ≠ .ok row :=
  ⟨⟨rfl, fun _ h => nomatch h⟩, rfl, fun _ h => nomatch h⟩

end Fletcher.Ts
