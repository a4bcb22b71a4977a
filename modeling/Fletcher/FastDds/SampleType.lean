import Fletcher.Core.FixedWriteBuffer
import Fletcher.FastDds.EnvelopeAgreement

/-!
# The sample type: a row through a transport's payload

`FletcherSamplePubSubType::serialize` encodes into the payload the transport gave it: four
bytes of encapsulation, four of length, and the envelope's body in a fixed window behind
them. The row encoder is the caller's. It may throw, run out of room, catch that and go on,
patch what it likes below the position; all it has is the calls of the buffer
(`BufferEncoder`).

A payload that `serialize` reports is turned back by `deserialize` into the row the encoder
left and the attachments it was given, as long as no blob reaches 2^32 bytes: the length of a
blob is narrowed before it is looked at, so such a blob is cut to what fits the word.
-/

namespace Fletcher.FastDds

open Lib Fletcher.Core List FixedWriteBuffer

/-! ## Encoding into a fixed window -/

/-- What reaches the handlers of `serialize`. -/
inductive Thrown where
  | std (e : Error)
  | other

/-- A step on the buffer: what it throws, and the buffer it leaves, also when it throws. -/
abbrev Step := FixedWriteBuffer → Except Thrown Unit × FixedWriteBuffer

/-- A caller's encoder: anything that reaches the buffer through its calls. -/
structure BufferEncoder where
  run : Step
  byCalls : ∀ b : FixedWriteBuffer, b.Calls (run b).2

namespace Sample

def perform (b : FixedWriteBuffer) :
    Except Error FixedWriteBuffer → Except Thrown Unit × FixedWriteBuffer
  | .ok b' => (.ok (), b')
  | .error e => (.error (.std e), b)

def andThen (r : Except Thrown Unit × FixedWriteBuffer) (next : Step) :
    Except Thrown Unit × FixedWriteBuffer :=
  match r.1 with
  | .ok () => next r.2
  | .error e => (.error e, r.2)

/-- The loop over the attachments. -/
def appendAttachments : List (Bytes × Bytes) → Step
  | [], b => (.ok (), b)
  | (key, blob) :: es, b =>
    andThen (perform b (b.appendU32 key.length)) fun b =>
    andThen (perform b (b.append key)) fun b =>
    let blobLen := blob.length % 2 ^ 32
    andThen (perform b (b.appendU32 blobLen)) fun b =>
    andThen (if blobLen > 0 then perform b (b.append (blob.take blobLen)) else (.ok (), b)) fun b =>
    appendAttachments es b

def encodeEnvelopeBody (encoder : BufferEncoder) (attachments : Attachments) : Step := fun b =>
  let rowLenPos := b.pos
  andThen (perform b (b.appendU32 0)) fun b =>
  let rowStart := b.pos
  andThen (encoder.run b) fun b =>
  andThen (perform b (b.patchU32 rowLenPos ((b.pos - rowStart) % 2 ^ 32))) fun b =>
  andThen (perform b (b.appendU32 attachments.entries.length)) fun b =>
  appendAttachments attachments.entries b

/-! ## The payload -/

/-- `SerializedPayload_t`: `data` is where the memory begins, and `maxSize` how much of it is the
payload's. -/
structure SerializedPayload where
  memory : Bytes
  maxSize : UInt32
  length : Nat

/-- `representation_header_size`. -/
def kHeader : Nat := 4

def kSampleLengthPrefix : Nat := 4

def kFraming : Nat := kHeader + kSampleLengthPrefix

/-- `RepresentationId`: the encoding flag with the endianness bit. -/
def representationId (xcdr2 : Bool) : UInt8 := if xcdr2 then 0x07 else 0x01

/-- The text of an exception. The last two are not exceptions. -/
def what : Error → String
  | .invalidArgument text => text
  | .outOfRange text => text
  | .runtimeError text => text
  | .overflowError text => text
  | .pubSubError text => text
  | .undefined => ""
  | .diverges => ""

/-- What `serialize` leaves: what it returns, the payload, and the error it records for
`Publish`. -/
structure Serialized where
  ok : Bool
  payload : SerializedPayload
  recorded : Option String

/-- Bounded by the buffer, and by what a reader's sample holds. -/
def bodyCapacity (payloadBytes : UInt32) (payload : SerializedPayload) : Nat :=
  min payloadBytes.toNat (payload.maxSize.toNat - kFraming)

/-- The window the body goes to. -/
def bodyWindow (payloadBytes : UInt32) (payload : SerializedPayload) : FixedWriteBuffer :=
  ⟨payload.memory, kFraming, bodyCapacity payloadBytes payload, 0⟩

def serialize (payloadBytes : UInt32) (encoder : BufferEncoder) (attachments : Attachments)
    (xcdr2 : Bool) (payload : SerializedPayload) : Serialized :=
  if payload.maxSize.toNat < kHeader + kSampleLengthPrefix + 4 then
    ⟨false, { payload with length := 0 }, none⟩
  else
    let encoded := encodeEnvelopeBody encoder attachments (bodyWindow payloadBytes payload)
    let memory := encoded.2.memory
    match encoded.1 with
    | .ok () =>
      let bodySize := encoded.2.pos % 2 ^ 32
      let length := kFraming + bodySize
      let encapsulation : Bytes :=
        [0x00, representationId xcdr2, 0x00, UInt8.ofNat ((4 - length % 4) % 4)]
      let memory := store (store memory 0 encapsulation) kHeader (leBytes 4 bodySize)
      ⟨true, ⟨memory, payload.maxSize, length⟩, none⟩
    | .error (.std (.overflowError _)) => ⟨false, ⟨memory, payload.maxSize, 0⟩, none⟩
    | .error (.std e) => ⟨false, ⟨memory, payload.maxSize, 0⟩, some (what e)⟩
    | .error .other =>
      ⟨false, ⟨memory, payload.maxSize, 0⟩,
        some "non-std exception in FletcherSamplePubSubType::serialize"⟩

/-- `deserialize`: the row and the attachments, or `none` for `false`. -/
def deserialize (payload : SerializedPayload) : Option (Bytes × Attachments) :=
  if payload.length < kHeader + kSampleLengthPrefix then none
  else if payload.memory[1]? ≠ some (representationId false) ∧
      payload.memory[1]? ≠ some (representationId true) then none
  else
    let length := ofLe ((payload.memory.drop kHeader).take 4)
    if payload.length - kHeader - kSampleLengthPrefix < length then none
    else
      let body := (payload.memory.drop kFraming).take length
      parseEnvelopeBody (decide (envelopeAttachmentCount body > 0)) body

/-! ## No step leaves the window -/

/-- Whatever the step does, and whether it throws, the window stays where it is and the memory
around it as it was. -/
def Stays (s : Step) : Prop := ∀ b : FixedWriteBuffer, b.Inv → (s b).2.Inv ∧ b.Keeps (s b).2

theorem stays_nothing : Stays fun b => (.ok (), b) := fun b hb => ⟨hb, .refl b⟩

theorem stays_perform {op : FixedWriteBuffer → Except Error FixedWriteBuffer}
    (hop : ∀ {b b' : FixedWriteBuffer}, b.Inv → op b = .ok b' → b.Stored b') :
    Stays fun b => perform b (op b) := by
  intro b hb
  dsimp only
  cases hr : op b with
  | error e => exact ⟨hb, .refl b⟩
  | ok b' => exact (hop hb hr).keeps hb

theorem stays_append (data : Bytes) : Stays fun b => perform b (b.append data) :=
  stays_perform fun hb => stored_append hb

theorem Stays.andThen {s t : Step} (hs : Stays s) (ht : Stays t) :
    Stays fun b => Sample.andThen (s b) t := by
  intro b hb
  obtain ⟨hinv, hkeeps⟩ := hs b hb
  dsimp only
  unfold Sample.andThen
  split
  · obtain ⟨hinv', hkeeps'⟩ := ht _ hinv
    exact ⟨hinv', hkeeps.trans hkeeps'⟩
  · exact ⟨hinv, hkeeps⟩

theorem stays_encoder (encoder : BufferEncoder) : Stays encoder.run :=
  fun b hb => (encoder.byCalls b).keeps hb

/-! ## What the steps write -/

/-- The step appends `data` when there is room for it, and throws for want of room otherwise. -/
structure Lays (s : Step) (data : Bytes) : Prop where
  stays : Stays s
  fits : ∀ b : FixedWriteBuffer, b.Inv → data.length ≤ b.capacity - b.pos →
    (s b).1 = .ok () ∧ (s b).2.written = b.written ++ data
  full : ∀ b : FixedWriteBuffer, b.Inv → b.capacity - b.pos < data.length →
    (s b).1 = .error (.std overflow)

theorem written_put {b : FixedWriteBuffer} (h : b.Inv) {data : Bytes}
    (hfit : data.length ≤ b.capacity - b.pos) : (b.put data).written = b.written ++ data := by
  have hpos := h.pos_le
  have hins := h.inside
  have hpl : b.base + b.pos + data.length ≤ b.memory.length := by omega
  show ((store b.memory (b.base + b.pos) data).drop b.base).take (b.pos + data.length) = _
  rw [take_drop, ← Nat.add_assoc, take_store_end hpl, drop_append,
    written, take_drop, length_take,
    Nat.min_eq_left (by omega), Nat.sub_eq_zero_of_le (by omega), drop_zero]

theorem lays_append (data : Bytes) : Lays (fun b => perform b (b.append data)) data where
  stays := stays_append data
  fits b hb hfit := by
    rw [append, if_neg (Nat.not_lt.mpr hfit)]
    exact ⟨rfl, written_put hb hfit⟩
  full b _ hfull := by
    rw [append, if_pos hfull]
    rfl

theorem lays_nothing : Lays (fun b => (.ok (), b)) [] where
  stays := stays_nothing
  fits _ _ _ := ⟨rfl, (append_nil _).symm⟩
  full _ _ hfull := absurd hfull (Nat.not_lt_zero _)

/-- Room for both is room for the first and then for the second. -/
theorem Lays.andThen {s t : Step} {d e : Bytes} (hs : Lays s d) (ht : Lays t e) :
    Lays (fun b => Sample.andThen (s b) t) (d ++ e) where
  stays := hs.stays.andThen ht.stays
  fits b hb hfit := by
    rw [length_append] at hfit
    obtain ⟨hok, hwr⟩ := hs.fits b hb (by omega)
    obtain ⟨hinv, hkeeps⟩ := hs.stays b hb
    have hmoved := congrArg List.length hwr
    rw [length_append, written_length hinv,
      written_length hb] at hmoved
    have hroom : e.length ≤ (s b).2.capacity - (s b).2.pos := by
      rw [hkeeps.capacity_eq]
      omega
    obtain ⟨hok', hwr'⟩ := ht.fits _ hinv hroom
    rw [Sample.andThen, hok]
    refine ⟨hok', ?_⟩
    rw [hwr', hwr, append_assoc]
  full b hb hfull := by
    rw [length_append] at hfull
    rw [Sample.andThen]
    by_cases hfst : d.length ≤ b.capacity - b.pos
    · obtain ⟨hok, hwr⟩ := hs.fits b hb hfst
      obtain ⟨hinv, hkeeps⟩ := hs.stays b hb
      have hmoved := congrArg List.length hwr
      rw [length_append, written_length hinv,
        written_length hb] at hmoved
      rw [hok]
      refine ht.full _ hinv ?_
      rw [hkeeps.capacity_eq]
      omega
    · rw [hs.full b hb (by omega)]

/-- The blob, cut to its narrowed length, which may leave nothing of it. -/
theorem lays_blob (blob : Bytes) : Lays
    (fun b => if blob.length % 2 ^ 32 > 0 then
      perform b (b.append (blob.take (blob.length % 2 ^ 32)))
      else (.ok (), b)) (blob.take (blob.length % 2 ^ 32)) := by
  by_cases hsome : blob.length % 2 ^ 32 > 0
  · simp only [if_pos hsome]
    exact lays_append _
  · simp only [Nat.eq_zero_of_not_pos hsome, take_zero]
    exact lays_nothing

theorem lays_appendAttachments : ∀ (es : List (Bytes × Bytes)),
    Lays (appendAttachments es) (es.flatMap attachmentBytes)
  | [] => lays_nothing
  | (key, blob) :: es => by
    have hlays := (lays_append (leBytes 4 key.length)).andThen ((lays_append key).andThen
      ((lays_append (leBytes 4 (blob.length % 2 ^ 32))).andThen ((lays_blob blob).andThen
        (lays_appendAttachments es))))
    rw [flatMap_cons, attachmentBytes, ← Window.leBytes_four_mod blob.length]
    simp only [append_assoc]
    exact hlays

/-! ## The body -/

/-- What follows the row. -/
theorem lays_attachments (a : Attachments) :
    Lays (fun b => andThen (perform b (b.appendU32 a.entries.length)) fun b =>
      appendAttachments a.entries b) (attachmentsBytes a) :=
  (lays_append (leBytes 4 a.entries.length)).andThen (lays_appendAttachments a.entries)

theorem stays_patchU32 (offset : Nat) (value : FixedWriteBuffer → Nat) :
    Stays fun b => perform b (b.patchU32 offset (value b)) :=
  stays_perform fun hb => stored_patchU32 hb

theorem stays_encodeEnvelopeBody {encoder : BufferEncoder} {a : Attachments} :
    Stays (encodeEnvelopeBody encoder a) := by
  intro b hb
  refine ((stays_append (leBytes 4 0)).andThen ?_) b hb
  intro b₁ hb₁
  refine ((stays_encoder encoder).andThen ?_) b₁ hb₁
  exact (stays_patchU32 b.pos fun b₂ => (b₂.pos - b₁.pos) % 2 ^ 32).andThen
    (lays_attachments a).stays

/-- The window with the placeholder in it, as the encoder gets it. -/
def lentWindow (b : FixedWriteBuffer) : FixedWriteBuffer := b.put (leBytes 4 0)

/-- The row the encoder leaves behind the placeholder. -/
def encodedRow (encoder : BufferEncoder) (b : FixedWriteBuffer) : Bytes :=
  (encoder.run (lentWindow b)).2.written.drop 4

/-- Patching the placeholder at the front leaves the length and the row. -/
theorem written_patchU32 {b b' : FixedWriteBuffer} (h : b.Inv) (hpos : 4 ≤ b.pos) {value : Nat}
    (hpat : b.patchU32 0 value = .ok b') :
    b'.written = leBytes 4 value ++ b.written.drop 4 := by
  have hins := h.inside
  have hlen : (leBytes 4 value).length = 4 := leBytes_length 4 value
  rw [patchU32, if_neg (by omega)] at hpat
  cases hpat
  show ((store b.memory (b.base + 0) (leBytes 4 value)).drop b.base).take b.pos = _
  rw [Nat.add_zero, store, append_assoc, drop_append, length_take,
    Nat.min_eq_left (by omega), Nat.sub_self, drop_zero, drop_of_length_le
    (by rw [length_take]; omega), nil_append, take_append,
    take_of_length_le (by omega), hlen, written, drop_take,
    drop_drop]

/-- From where the encoder has returned: the length is patched and the attachments follow. -/
theorem afterRow_spec (a : Attachments) {b : FixedWriteBuffer} (hb : b.Inv) (hpos : 4 ≤ b.pos) :
    let rest := andThen (perform b (b.patchU32 0 ((b.pos - 4) % 2 ^ 32))) fun b =>
      andThen (perform b (b.appendU32 a.entries.length)) fun b => appendAttachments a.entries b
    (rest.1 = .ok () ↔ (serializeEnvelope ⟨b.written.drop 4, a⟩).length ≤ b.capacity) ∧
      (rest.1 = .ok () → rest.2.written = serializeEnvelope ⟨b.written.drop 4, a⟩) := by
  have hlen : (b.written.drop 4).length = b.pos - 4 := by
    rw [length_drop, written_length hb]
  obtain ⟨b', hpat⟩ : ∃ b', b.patchU32 0 ((b.pos - 4) % 2 ^ 32) = .ok b' := by
    exact ⟨_, if_neg (by omega)⟩
  obtain ⟨hb', hkeeps⟩ := (stored_patchU32 hb hpat).keeps hb
  have hwr := written_patchU32 hb hpos hpat
  rw [Window.leBytes_four_mod, ← hlen] at hwr
  have hpos' : b'.pos = b.pos := by
    have hsize := congrArg List.length hwr
    rw [written_length hb', length_append, leBytes_length, hlen] at hsize
    omega
  have htotal : (serializeEnvelope ⟨b.written.drop 4, a⟩).length =
      b.pos + (attachmentsBytes a).length := by
    rw [serializeEnvelope, length_append, length_append, leBytes_length, hlen]
    dsimp only
    omega
  intro rest
  have hrest : rest = andThen (perform b' (b'.appendU32 a.entries.length)) fun b =>
      appendAttachments a.entries b := by
    show andThen (perform b (b.patchU32 0 ((b.pos - 4) % 2 ^ 32))) _ = _
    rw [hpat]
    rfl
  have hlays := lays_attachments a
  have hins := hb.pos_le
  by_cases hfit : (attachmentsBytes a).length ≤ b'.capacity - b'.pos
  · obtain ⟨hok, hby⟩ := hlays.fits b' hb' hfit
    rw [hrest]
    rw [hkeeps.capacity_eq, hpos'] at hfit
    refine ⟨iff_of_true hok (by omega), fun _ => ?_⟩
    rw [hby, hwr]
    rfl
  · have herr := hlays.full b' hb' (Nat.lt_of_not_le hfit)
    rw [hrest]
    rw [hkeeps.capacity_eq, hpos'] at hfit
    have hnot : (andThen (perform b' (b'.appendU32 a.entries.length)) fun b =>
        appendAttachments a.entries b).1 ≠ .ok () := by
      rw [herr]
      intro hok
      cases hok
    exact ⟨iff_of_false hnot (by omega), fun hok => absurd hok hnot⟩

/-- The body is written when the encoder returns and the envelope fits the window. -/
theorem encodeEnvelopeBody_spec {encoder : BufferEncoder} {a : Attachments} {b : FixedWriteBuffer}
    (hb : b.Inv) (hsta : b.pos = 0) :
    ((encodeEnvelopeBody encoder a b).1 = .ok () ↔ (encoder.run (lentWindow b)).1 = .ok () ∧
        (serializeEnvelope ⟨encodedRow encoder b, a⟩).length ≤ b.capacity) ∧
    ((encodeEnvelopeBody encoder a b).1 = .ok () →
      (encodeEnvelopeBody encoder a b).2.written =
        serializeEnvelope ⟨encodedRow encoder b, a⟩) := by
  have hlen : (leBytes 4 0).length = 4 := leBytes_length 4 0
  by_cases hroom : 4 ≤ b.capacity
  · have hpl : b.appendU32 0 = .ok (lentWindow b) := if_neg (by omega)
    obtain ⟨hlent, hkeeps⟩ := (stored_append hb hpl).keeps hb
    have hpos : (lentWindow b).pos = 4 := by
      show b.pos + (leBytes 4 0).length = 4
      omega
    obtain ⟨hb₂, hkeeps₂⟩ := stays_encoder encoder (lentWindow b) hlent
    have hcap : (encoder.run (lentWindow b)).2.capacity = b.capacity :=
      hkeeps₂.capacity_eq.trans hkeeps.capacity_eq
    have hback := hkeeps₂.pos_le
    have hbody : encodeEnvelopeBody encoder a b = andThen (encoder.run (lentWindow b)) fun b =>
        andThen (perform b (b.patchU32 0 ((b.pos - 4) % 2 ^ 32))) fun b =>
        andThen (perform b (b.appendU32 a.entries.length)) fun b =>
        appendAttachments a.entries b := by
      rw [encodeEnvelopeBody, hpl, hsta, ← hpos]
      rfl
    rw [hbody, andThen, encodedRow]
    cases hran : (encoder.run (lentWindow b)).1 with
    | error e => exact ⟨iff_of_false nofun (fun h => nomatch h.1), nofun⟩
    | ok u =>
      have hafter := afterRow_spec a hb₂ (hpos ▸ hback)
      rw [hcap] at hafter
      exact ⟨hafter.1.trans ⟨fun h => ⟨rfl, h⟩, fun h => h.2⟩, hafter.2⟩
  · have hpl : b.appendU32 0 = .error overflow := if_pos (by omega)
    have hnot : (encodeEnvelopeBody encoder a b).1 ≠ .ok () := by
      rw [encodeEnvelopeBody, hpl]
      exact nofun
    have height := Envelope.eight_le_length ⟨encodedRow encoder b, a⟩
    exact ⟨iff_of_false hnot fun h => by omega, fun hok => absurd hok hnot⟩

/-! ## The payload, and back -/

section Payload

variable (payloadBytes : UInt32) (encoder : BufferEncoder) (a : Attachments) (xcdr2 : Bool)
variable (p : SerializedPayload)

/-- `serialize` comes to its end: there is room for the framing and an empty row, the encoder
returns, and the envelope as it is written fits behind the framing. -/
def Delivers : Prop :=
  kHeader + kSampleLengthPrefix + 4 ≤ p.maxSize.toNat ∧
    (encoder.run (lentWindow (bodyWindow payloadBytes p))).1 = .ok () ∧
    (serializeEnvelope ⟨encodedRow encoder (bodyWindow payloadBytes p), a⟩).length ≤
      bodyCapacity payloadBytes p

/-- The row the encoder leaves in the payload's window. -/
def payloadRow : Bytes := encodedRow encoder (bodyWindow payloadBytes p)

variable {payloadBytes encoder a xcdr2 p} {r : Except Thrown Unit × FixedWriteBuffer}

theorem capacity_le (hroom : kHeader + kSampleLengthPrefix + 4 ≤ p.maxSize.toNat) :
    kFraming + bodyCapacity payloadBytes p ≤ p.maxSize.toNat := by
  have hmin : bodyCapacity payloadBytes p ≤ p.maxSize.toNat - kFraming := Nat.min_le_right _ _
  unfold kFraming at *
  omega

theorem inv_bodyWindow (hp : p.maxSize.toNat ≤ p.memory.length)
    (hroom : kHeader + kSampleLengthPrefix + 4 ≤ p.maxSize.toNat) :
    (bodyWindow payloadBytes p).Inv :=
  ⟨Nat.zero_le _, Nat.le_trans (capacity_le hroom) hp⟩

/-- The memory once the body is in it and the framing in front of it. -/
def framed (memory : Bytes) (xcdr2 : Bool) (bodySize : Nat) : Bytes :=
  store (store memory 0 [0x00, representationId xcdr2, 0x00,
    UInt8.ofNat ((4 - (kFraming + bodySize) % 4) % 4)]) kHeader (leBytes 4 bodySize)

theorem serialize_of_ok (hroom : kHeader + kSampleLengthPrefix + 4 ≤ p.maxSize.toNat)
    (hrun : encodeEnvelopeBody encoder a (bodyWindow payloadBytes p) = r) (hok : r.1 = .ok ()) :
    serialize payloadBytes encoder a xcdr2 p =
      ⟨true, ⟨framed r.2.memory xcdr2 (r.2.pos % 2 ^ 32), p.maxSize,
        kFraming + r.2.pos % 2 ^ 32⟩, none⟩ := by
  rw [serialize, if_neg (by omega)]
  dsimp only
  rw [hrun, hok]
  rfl

theorem serialize_of_error {e : Thrown}
    (hroom : kHeader + kSampleLengthPrefix + 4 ≤ p.maxSize.toNat)
    (hrun : encodeEnvelopeBody encoder a (bodyWindow payloadBytes p) = r) (herr : r.1 = .error e) :
    (serialize payloadBytes encoder a xcdr2 p).ok = false ∧
      (serialize payloadBytes encoder a xcdr2 p).payload = ⟨r.2.memory, p.maxSize, 0⟩ := by
  rw [serialize, if_neg (by omega)]
  dsimp only
  rw [hrun, herr]
  cases e with
  | other => exact ⟨rfl, rfl⟩
  | std e => cases e <;> exact ⟨rfl, rfl⟩

theorem framed_length {memory : Bytes} (bodySize : Nat) (h : kFraming ≤ memory.length) :
    (framed memory xcdr2 bodySize).length = memory.length := by
  unfold kFraming kHeader kSampleLengthPrefix at h
  have hfst : (0 : Nat) + 4 ≤ memory.length := by omega
  rw [framed, store_length, store_length hfst]
  rw [store_length hfst, leBytes_length, kHeader]
  omega

/-- The framing is in front of the body. -/
theorem drop_framed {memory : Bytes} {bodySize k : Nat} (h : kFraming ≤ memory.length)
    (hk : kFraming ≤ k) : (framed memory xcdr2 bodySize).drop k = memory.drop k := by
  unfold kFraming kHeader kSampleLengthPrefix at h hk
  have hfst : (0 : Nat) + 4 ≤ memory.length := by omega
  rw [framed, drop_store, drop_store hfst]
  · simp only [length_cons, length_nil]
    omega
  · rw [store_length hfst, leBytes_length, kHeader]
    omega
  · rw [leBytes_length, kHeader]
    omega

theorem take_framed {memory : Bytes} (bodySize : Nat) (h : kFraming ≤ memory.length) :
    (framed memory xcdr2 bodySize).take kFraming =
      [0x00, representationId xcdr2, 0x00, UInt8.ofNat ((4 - (kFraming + bodySize) % 4) % 4)] ++
        leBytes 4 bodySize := by
  unfold kFraming kHeader kSampleLengthPrefix at h
  have hfst : (0 : Nat) + 4 ≤ memory.length := by omega
  have hsnd : kHeader + (leBytes 4 bodySize).length ≤ (store memory 0 [0x00,
      representationId xcdr2, 0x00, UInt8.ofNat ((4 - (kFraming + bodySize) % 4) % 4)]).length := by
    rw [store_length hfst, leBytes_length, kHeader]
    omega
  have hend := take_store_end hsnd
  rw [leBytes_length] at hend
  rw [framed]
  have hhead := @take_store_end memory [0x00, representationId xcdr2, 0x00,
    UInt8.ofNat ((4 - (kFraming + bodySize) % 4) % 4)] 0 hfst
  exact hend.trans (congrArg (· ++ leBytes 4 bodySize) hhead)

/-- Which payloads `deserialize` looks into, and what it makes of them. -/
theorem deserialize_framed {memory : Bytes} {bodySize : Nat} (h : kFraming ≤ memory.length)
    (hsize : bodySize < 2 ^ 32) {maxSize : UInt32} :
    deserialize ⟨framed memory xcdr2 bodySize, maxSize, kFraming + bodySize⟩ =
      parseEnvelopeBody
        (decide (envelopeAttachmentCount ((memory.drop kFraming).take bodySize) > 0))
        ((memory.drop kFraming).take bodySize) := by
  have hfra := @take_framed xcdr2 memory bodySize h
  have hid : (framed memory xcdr2 bodySize)[1]? = some (representationId xcdr2) := by
    have hget := congrArg (fun bs => bs[1]?) hfra
    rw [← getElem?_take_of_lt (show 1 < kFraming by decide)]
    exact hget
  have hword : ((framed memory xcdr2 bodySize).drop kHeader).take 4 = leBytes 4 bodySize := by
    rw [take_drop]
    exact (congrArg (List.drop kHeader) hfra).trans rfl
  have hlen : ofLe (leBytes 4 bodySize) = bodySize := ofLe_leBytes hsize
  rw [deserialize]
  simp only [hid, hword, hlen, drop_framed h (Nat.le_refl _)]
  rw [if_neg (by unfold kFraming; omega), if_neg, if_neg (by unfold kFraming; omega)]
  cases xcdr2 with
  | false => exact fun hboth => hboth.1 rfl
  | true => exact fun hboth => hboth.2 rfl

/-- Only blobs can be too long for their words in an envelope that fits a payload: everything
else is written whole. -/
theorem fits_iff_blobs {env : Envelope} (h : (serializeEnvelope env).length < 2 ^ 32) :
    env.Fits ↔ ∀ e ∈ env.attachments.entries, e.2.length < 2 ^ 32 := by
  have htotal : (serializeEnvelope env).length =
      4 + env.row.length + (4 + (env.attachments.entries.flatMap attachmentBytes).length) := by
    simp only [serializeEnvelope, attachmentsBytes, length_append, leBytes_length]
  refine ⟨fun hfits e he => (hfits.entry e he).2, fun hblobs =>
    ⟨?_, ?_, fun e he => ⟨?_, hblobs e he⟩⟩⟩
  · omega
  · have hcnt := eight_mul_le env.attachments.entries
    omega
  · have hone : (attachmentBytes e).length ≤
        (env.attachments.entries.flatMap attachmentBytes).length := by
      rw [flatMap_def]
      exact (sublist_flatten_of_mem (mem_map_of_mem he)).length_le
    simp only [attachmentBytes, length_append] at hone
    omega

/-- A sample that was delivered, read back. -/
theorem deserialize_serialize (hp : p.maxSize.toNat ≤ p.memory.length)
    (hdls : Delivers payloadBytes encoder a p) :
    (serialize payloadBytes encoder a xcdr2 p).ok = true ∧
      (deserialize (serialize payloadBytes encoder a xcdr2 p).payload =
          some (payloadRow payloadBytes encoder p, a) ↔
        ∀ e ∈ a.entries, e.2.length < 2 ^ 32) := by
  obtain ⟨hroom, hran, hfit⟩ := hdls
  have hwin := @inv_bodyWindow payloadBytes p hp hroom
  obtain ⟨hiff, hbody⟩ := encodeEnvelopeBody_spec hwin rfl
  have hok := hiff.mpr ⟨hran, hfit⟩
  have hwr := hbody hok
  obtain ⟨hinv, hkeeps⟩ := stays_encodeEnvelopeBody _ hwin
  have hcap := @capacity_le payloadBytes p hroom
  have hmax : p.maxSize.toNat < 2 ^ 32 := p.maxSize.toNat_lt
  generalize hrun : encodeEnvelopeBody encoder a (bodyWindow payloadBytes p) = r at *
  have hsize : r.2.pos ≤ bodyCapacity payloadBytes p :=
    Nat.le_trans hinv.pos_le (Nat.le_of_eq hkeeps.capacity_eq)
  have hword : r.2.pos % 2 ^ 32 = r.2.pos := by
    refine Nat.mod_eq_of_lt ?_
    omega
  have hmem : kFraming ≤ r.2.memory.length := by
    rw [hkeeps.length_eq]
    show kFraming ≤ p.memory.length
    omega
  -- The window begins behind the framing, so its written part is the body.
  have hslice : (r.2.memory.drop kFraming).take r.2.pos =
      serializeEnvelope ⟨payloadRow payloadBytes encoder p, a⟩ := by
    rw [written, hkeeps.base_eq] at hwr
    exact hwr
  have hsht : (serializeEnvelope ⟨payloadRow payloadBytes encoder p, a⟩).length < 2 ^ 32 := by
    have hfit' : (serializeEnvelope ⟨payloadRow payloadBytes encoder p, a⟩).length ≤
        bodyCapacity payloadBytes p := hfit
    omega
  rw [serialize_of_ok hroom hrun hok]
  refine ⟨rfl, ?_⟩
  rw [deserialize_framed hmem (Nat.mod_lt _ (Nat.two_pow_pos 32)), hword, hslice,
    parseEnvelopeBody_owner]
  exact (parseEnvelopeBody_serializeEnvelope _).trans (fits_iff_blobs hsht)

/-- A sample that was not delivered: the failure is reported, with no length. -/
theorem serialize_refused (hp : p.maxSize.toNat ≤ p.memory.length)
    (hdls : ¬ Delivers payloadBytes encoder a p) :
    (serialize payloadBytes encoder a xcdr2 p).ok = false ∧
      (serialize payloadBytes encoder a xcdr2 p).payload.length = 0 := by
  by_cases hroom : kHeader + kSampleLengthPrefix + 4 ≤ p.maxSize.toNat
  · have hwin := @inv_bodyWindow payloadBytes p hp hroom
    obtain ⟨hiff, -⟩ := encodeEnvelopeBody_spec hwin rfl
    cases hran : (encodeEnvelopeBody encoder a (bodyWindow payloadBytes p)).1 with
    | ok u => exact absurd ⟨hroom, hiff.mp hran⟩ hdls
    | error e =>
      refine ⟨(serialize_of_error hroom rfl hran).1, ?_⟩
      rw [(serialize_of_error hroom rfl hran).2]
  · rw [serialize, if_pos (by omega)]
    exact ⟨rfl, rfl⟩

/-- Nothing behind the payload's own memory has been written, and no length above it is
reported. -/
def Contained (p out : SerializedPayload) : Prop :=
  out.memory.length = p.memory.length ∧
    out.memory.drop p.maxSize.toNat = p.memory.drop p.maxSize.toNat ∧
    out.maxSize = p.maxSize ∧ out.length ≤ p.maxSize.toNat

/-- Whatever becomes of the sample, it stays inside the payload. -/
theorem serialize_inside (hp : p.maxSize.toNat ≤ p.memory.length) :
    Contained p (serialize payloadBytes encoder a xcdr2 p).payload := by
  by_cases hroom : kHeader + kSampleLengthPrefix + 4 ≤ p.maxSize.toNat
  · obtain ⟨hinv, hkeeps⟩ :=
      stays_encodeEnvelopeBody _ (@inv_bodyWindow payloadBytes p hp hroom)
    have hcap := @capacity_le payloadBytes p hroom
    generalize hrun : encodeEnvelopeBody encoder a (bodyWindow payloadBytes p) = r at *
    -- The window ends inside the payload, so what is behind the payload is behind the window.
    have hbeh : r.2.memory.drop p.maxSize.toNat = p.memory.drop p.maxSize.toNat := by
      have hwin := congrArg (List.drop (p.maxSize.toNat -
        (kFraming + bodyCapacity payloadBytes p))) hkeeps.behind
      rw [drop_drop, drop_drop] at hwin
      have hend : kFraming + bodyCapacity payloadBytes p +
          (p.maxSize.toNat - (kFraming + bodyCapacity payloadBytes p)) = p.maxSize.toNat := by omega
      exact hend ▸ hwin
    have hlen : r.2.memory.length = p.memory.length := hkeeps.length_eq
    cases hran : r.1 with
    | ok u =>
      have hsize : r.2.pos ≤ bodyCapacity payloadBytes p :=
        Nat.le_trans hinv.pos_le (Nat.le_of_eq hkeeps.capacity_eq)
      have hmem : kFraming ≤ r.2.memory.length := by omega
      rw [serialize_of_ok hroom hrun hran]
      refine ⟨?_, ?_, rfl, ?_⟩
      · exact (framed_length _ hmem).trans hlen
      · exact (drop_framed hmem (by omega)).trans hbeh
      · dsimp only
        omega
    | error e =>
      rw [(serialize_of_error hroom hrun hran).2]
      exact ⟨hlen, hbeh, rfl, Nat.zero_le _⟩
  · rw [serialize, if_pos (by omega)]
    exact ⟨rfl, rfl, rfl, Nat.zero_le _⟩

end Payload

/-- The sample comes back as it was given, or its failure is reported with no length. -/
def Recovers (payloadBytes : UInt32) (encoder : BufferEncoder) (a : Attachments) (xcdr2 : Bool)
    (p : SerializedPayload) : Prop :=
  let out := serialize payloadBytes encoder a xcdr2 p
  (out.ok = false ∧ out.payload.length = 0) ∨
    (out.ok = true ∧ deserialize out.payload = some (payloadRow payloadBytes encoder p, a))

/-- **A sample is recovered exactly when no blob of a sample that is delivered reaches 2^32
bytes**; and whatever the encoder does, nothing is written behind the payload and no length
reported above it. -/
theorem serialize_recovers_iff (payloadBytes : UInt32) (encoder : BufferEncoder) (a : Attachments)
    (xcdr2 : Bool) (p : SerializedPayload) (hp : p.maxSize.toNat ≤ p.memory.length) :
    Contained p (serialize payloadBytes encoder a xcdr2 p).payload ∧
    (Recovers payloadBytes encoder a xcdr2 p ↔
      (Delivers payloadBytes encoder a p → ∀ e ∈ a.entries, e.2.length < 2 ^ 32)) := by
  refine ⟨serialize_inside hp, ?_⟩
  by_cases hdelivers : Delivers payloadBytes encoder a p
  · obtain ⟨hok, hiff⟩ := @deserialize_serialize payloadBytes encoder a xcdr2 p hp hdelivers
    refine ⟨fun hrecovers _ => ?_, fun hblobs => .inr ⟨hok, hiff.mpr (hblobs hdelivers)⟩⟩
    rcases hrecovers with hfailed | hsame
    · exact absurd (hok.symm.trans hfailed.1) nofun
    · exact hiff.mp hsame.2
  · exact ⟨fun _ h => absurd h hdelivers, fun _ => .inl (serialize_refused hp hdelivers)⟩

/-- An encoder that writes nothing. -/
def silent : BufferEncoder := ⟨fun b => (.ok (), b), fun _ => Relation.ReflTransGen.refl⟩

/-- A payload of 64 bytes. -/
def smallPayload : SerializedPayload := ⟨List.replicate 64 0, 64, 0⟩

/-- An empty row and one small attachment. -/
theorem serialize_recovers_small :
    Recovers 64 silent ⟨[([97], [1, 2])], by decide, by decide⟩ false smallPayload :=
  (serialize_recovers_iff 64 silent _ false smallPayload (by decide)).2.mpr fun _ => by decide

/-- A blob of 2^32 bytes: its length is narrowed to zero, the sample is delivered with an empty
blob, and the one who reads it is not told. -/
theorem longBlob_lost : ∃ a : Attachments, smallPayload.maxSize.toNat ≤ smallPayload.memory.length ∧
      (∃ e ∈ a.entries, e.2.length = 2 ^ 32) ∧
      (serialize 64 silent a false smallPayload).ok = true ∧
      deserialize (serialize 64 silent a false smallPayload).payload ≠
        some (payloadRow 64 silent smallPayload, a) := by
  have hlen : (replicate (2 ^ 32) (1 : UInt8)).length = 2 ^ 32 := length_replicate
  generalize replicate (2 ^ 32) (1 : UInt8) = blob at hlen
  have hkey : ∀ e ∈ [(([97] : Bytes), blob)], (0 : UInt8) ∉ e.1 := by
    intro e he
    rw [mem_singleton.mp he]
    show (0 : UInt8) ∉ ([97] : Bytes)
    decide
  refine ⟨⟨[([97], blob)], pairwise_singleton _ _, hkey⟩, by decide,
    ⟨([97], blob), mem_singleton_self _, hlen⟩, ?_⟩
  have hrow : encodedRow silent (bodyWindow 64 smallPayload) = [] := by decide
  have hdelivers : Delivers 64 silent ⟨[([97], blob)], pairwise_singleton _ _, hkey⟩
      smallPayload := by
    refine ⟨by decide, rfl, ?_⟩
    rw [hrow]
    simp only [serializeEnvelope, attachmentsBytes, flatMap_cons, flatMap_nil,
      attachmentBytes, length_append, leBytes_length, length_take, hlen, Nat.mod_self]
    decide
  obtain ⟨hok, hiff⟩ := @deserialize_serialize 64 silent _ false smallPayload (by decide) hdelivers
  refine ⟨hok, fun hsame => ?_⟩
  have hshort := hiff.mp hsame ([97], blob) (mem_singleton_self _)
  dsimp only at hshort
  omega

end Sample

end Fletcher.FastDds
