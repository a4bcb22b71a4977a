import Fletcher.Core.Attachments
import Fletcher.Lib.Reader

/-!
# Envelopes

An envelope is a row and its attachments, each length in front of its bytes and the
attachments in the one order `Attachments` publishes.

Both readers of the format, `DeserializeEnvelope` here and the Fast DDS provider's
`ParseEnvelopeBody`, run the same loop over the attachments. They differ in what they say
when something is wrong, so the loop takes its faults as a parameter (`WireFaults`).
-/

namespace Fletcher.Core

open Lib List AttachmentsWireBuilder

variable {bs data : Bytes}

variable {n : Nat} {row : Bytes} {env : Envelope}

structure Envelope where
  row : Bytes
  attachments : Attachments
  deriving DecidableEq

/-! ## Writing -/

/-- One attachment. The key goes out whole behind its narrowed length; of the blob, only as
many bytes as its narrowed length says. -/
def attachmentBytes (e : Bytes × Bytes) : Bytes :=
  leBytes 4 e.1.length ++ e.1 ++ (leBytes 4 e.2.length ++ e.2.take (e.2.length % 2 ^ 32))

/-- The count and the attachments. -/
def attachmentsBytes (a : Attachments) : Bytes :=
  leBytes 4 a.entries.length ++ a.entries.flatMap attachmentBytes

/-- `SerializeEnvelope`. -/
def serializeEnvelope (env : Envelope) : Bytes :=
  leBytes 4 env.row.length ++ env.row ++ attachmentsBytes env.attachments

/-! ## Reading -/

/-- What a reader of the format says about each thing that can be wrong with it. -/
structure WireFaults (ε : Type) where
  word : ε
  row : ε
  key : ε
  blob : ε
  owner : ε
  zeroByte : ε

namespace WireFaults

variable {ε : Type} (f : WireFaults ε)

def readU32 : Reader ε Nat := do
  let bs ← Reader.take f.word 4
  pure (ofLe bs)

/-- A length and that many bytes, or `truncated`. -/
def readSized (truncated : ε) : Reader ε Bytes := do
  let len ← f.readU32
  Reader.take truncated len

/-- The key and the blob. A blob that has bytes aliases the buffer, and is refused when
nothing owns that. -/
def readAttachment (owned : Bool) : Reader ε (Bytes × Bytes) := do
  let key ← f.readSized f.key
  let blob ← f.readSized f.blob
  Reader.require f.owner (blob.isEmpty || owned)
  pure (key, blob)

/-- The loop over the attachments, through the bulk builder. -/
def readAttachments (owned : Bool) :
    Nat → AttachmentsWireBuilder → Reader ε AttachmentsWireBuilder
  | 0, build => pure build
  | n + 1, build => do
    let (key, blob) ← f.readAttachment owned
    match build.append key blob with
    | none => Reader.fail f.zeroByte
    | some build => readAttachments owned n build

end WireFaults

/-- `Blob`'s own refusal. -/
def missingOwner : Error :=
  .pubSubError ("Blob: bytes crossing the seam need an owner that keeps them alive; " ++
    "there is no view-only Blob")

namespace Envelope

def faults : WireFaults Error where
  word := .invalidArgument "DeserializeEnvelope: unexpected end of buffer"
  row := .invalidArgument "DeserializeEnvelope: row data truncated"
  key := .invalidArgument "DeserializeEnvelope: key data truncated"
  blob := .invalidArgument "DeserializeEnvelope: blob data truncated"
  owner := missingOwner
  zeroByte := .invalidArgument "DeserializeEnvelope: attachment key contains a zero byte"

/-- The row and the attachment count. -/
def readHeader : Reader Error (Bytes × Nat) := do
  let row ← faults.readSized faults.row
  let count ← faults.readU32
  pure (row, count)

def read (owned : Bool) : Reader Error Envelope := do
  let (row, count) ← readHeader
  let build ← faults.readAttachments owned count .make
  pure ⟨row, build.finish.published⟩

end Envelope

/-- `DeserializeEnvelope(owner, data, size)`; `owned` is `owner != nullptr`. Bytes after the
last attachment are left alone. -/
def deserializeEnvelopeFrom (owned : Bool) (data : Bytes) : Except Error Envelope :=
  if data.length < 8 then .error (.invalidArgument "DeserializeEnvelope: buffer too small")
  else (Envelope.read owned data).map Prod.fst

/-- `EnvelopeAttachmentCount`: 0 also for a buffer too short to say. -/
def envelopeAttachmentCount (data : Bytes) : Nat :=
  if data.length < 4 then 0
  else
    let rowLen := ofLe (data.take 4)
    if data.length - 4 < rowLen then 0
    else
      let pos := 4 + rowLen
      if data.length - pos < 4 then 0 else ofLe ((data.drop pos).take 4)

/-- `DeserializeEnvelope(data, size)`: makes an owner when there is an attachment to own. -/
def deserializeEnvelope (data : Bytes) : Except Error Envelope :=
  deserializeEnvelopeFrom (envelopeAttachmentCount data != 0) data

/-! ## What is written is read back -/

/-- Every length and the count fit the words they are written in. -/
structure Envelope.Fits (env : Envelope) : Prop where
  row : env.row.length < 2 ^ 32
  count : env.attachments.entries.length < 2 ^ 32
  entry : ∀ e ∈ env.attachments.entries, e.1.length < 2 ^ 32 ∧ e.2.length < 2 ^ 32

namespace WireFaults

open Reader

variable {ε : Type} (f : WireFaults ε)

theorem readU32_eq_ok {rest : Bytes} (h : f.readU32 bs = .ok (n, rest)) :
    ∃ word : Bytes, word.length = 4 ∧ ofLe word = n ∧ bs = word ++ rest := by
  obtain ⟨word, _, htake, hpure⟩ := bind_eq_ok.mp h
  obtain ⟨hlen, rfl⟩ := take_eq_ok.mp htake
  obtain ⟨hvalue, rfl⟩ := pure_eq_ok.mp hpure
  exact ⟨word, hlen, hvalue, rfl⟩

theorem reads_readU32 (h : n < 2 ^ 32) : Reads f.readU32 (leBytes 4 n) n := by
  have hread : Reads f.readU32 (leBytes 4 n) (ofLe (leBytes 4 n)) :=
    (reads_take_of_length f.word (leBytes_length 4 n)).bind_pure
  rwa [ofLe_leBytes (Nat.lt_of_lt_of_eq h (by decide))] at hread

theorem reads_readSized {truncated : ε} (h : bs.length < 2 ^ 32) :
    Reads (f.readSized truncated) (leBytes 4 bs.length ++ bs) bs :=
  (f.reads_readU32 h).bind (reads_take truncated bs)

theorem reads_readAttachment {e : Bytes × Bytes} (h : e.1.length < 2 ^ 32 ∧ e.2.length < 2 ^ 32) :
    Reads (f.readAttachment true) (attachmentBytes e) e := by
  rw [attachmentBytes, Nat.mod_eq_of_lt h.2, take_length]
  refine (f.reads_readSized h.1).bind ((f.reads_readSized h.2).before ?_)
  rw [Bool.or_true, require_true]
  exact (reads_pure ()).after (reads_pure e)

/-- The loop takes the entries in, one behind the other. -/
theorem reads_readAttachments : ∀ (es : List (Bytes × Bytes)) {b : AttachmentsWireBuilder},
    b.finished = false → (∀ e ∈ es, (0 : UInt8) ∉ e.1) →
    (∀ e ∈ es, e.1.length < 2 ^ 32 ∧ e.2.length < 2 ^ 32) →
    ∃ b', b'.entries = b.entries ++ es ∧
      Reads (f.readAttachments true es.length b) (es.flatMap attachmentBytes) b'
  | [], b, _, _, _ => ⟨b, (append_nil _).symm, reads_pure b⟩
  | e :: es, b, hb, hzero, hfits => by
    obtain ⟨_, hmid, hents, hopen⟩ :=
      append_eq_some e.2 hb (hzero e mem_cons_self)
    obtain ⟨b', hb', hreads⟩ := reads_readAttachments es hopen
      (fun x hx => hzero x (mem_cons_of_mem e hx))
      (fun x hx => hfits x (mem_cons_of_mem e hx))
    refine ⟨b', by rw [hb', hents, append_assoc]; rfl, ?_⟩
    refine (f.reads_readAttachment (hfits e mem_cons_self)).bind ?_
    dsimp only
    rw [hmid]
    exact hreads

/-- The attachments, read back into the container they came from. -/
theorem reads_attachments {a : Attachments}
    (hfits : ∀ e ∈ a.entries, e.1.length < 2 ^ 32 ∧ e.2.length < 2 ^ 32) :
    ∃ b, b.finish.published = a ∧
      Reads (f.readAttachments true a.entries.length .make) (a.entries.flatMap attachmentBytes)
        b := by
  obtain ⟨b, hb, hreads⟩ := f.reads_readAttachments a.entries (b := .make) rfl a.noZero hfits
  refine ⟨b, Attachments.eq_of_entries ?_, hreads⟩
  have hents : b.entries = a.entries := hb
  rw [published_finish, hents, SortedMap.build_of_ascending a.ascending]

end WireFaults

namespace Envelope

open Reader

theorem reads_readHeader {count : Nat} (hrow : row.length < 2 ^ 32) (hcnt : count < 2 ^ 32) :
    Reads readHeader (leBytes 4 row.length ++ row ++ leBytes 4 count) (row, count) :=
  (faults.reads_readSized hrow).bind (faults.reads_readU32 hcnt).bind_pure

/-- A row, and attachments in whatever order they come. -/
theorem reads_arrivals {es : List (Bytes × Bytes)} (hrow : row.length < 2 ^ 32)
    (hcnt : es.length < 2 ^ 32) (hzero : ∀ e ∈ es, (0 : UInt8) ∉ e.1)
    (hfits : ∀ e ∈ es, e.1.length < 2 ^ 32 ∧ e.2.length < 2 ^ 32) :
    ∃ a : Attachments, a.entries = SortedMap.build es ∧
      Reads (read true) (leBytes 4 row.length ++ row ++
        (leBytes 4 es.length ++ es.flatMap attachmentBytes)) ⟨row, a⟩ := by
  obtain ⟨b, hb, hreads⟩ := faults.reads_readAttachments es (b := .make) rfl hzero hfits
  have hents : b.entries = es := hb
  refine ⟨b.finish.published, by rw [published_finish, hents], ?_⟩
  rw [← append_assoc]
  exact (reads_readHeader hrow hcnt).bind (f := fun p => do
    let build ← faults.readAttachments true p.2 .make
    pure (⟨p.1, build.finish.published⟩ : Envelope)) hreads.bind_pure

theorem reads_read (h : env.Fits) : Reads (read true) (serializeEnvelope env) env := by
  obtain ⟨a, ha, hreads⟩ := reads_arrivals h.row h.count env.attachments.noZero h.entry
  rw [SortedMap.build_of_ascending env.attachments.ascending] at ha
  rw [Attachments.eq_of_entries ha] at hreads
  exact hreads

theorem eight_le_length (env : Envelope) : 8 ≤ (serializeEnvelope env).length := by
  simp only [serializeEnvelope, attachmentsBytes, length_append, leBytes_length]
  omega

end Envelope

theorem deserializeEnvelopeFrom_serializeEnvelope (h : env.Fits) :
    deserializeEnvelopeFrom true (serializeEnvelope env) = .ok env := by
  have hread := Envelope.reads_read h []
  rw [append_nil] at hread
  rw [deserializeEnvelopeFrom, if_neg (Nat.not_lt.mpr env.eight_le_length), hread]
  rfl

/-! ## The overload that makes its own owner -/

/-- Where the header can be read, the count looked up in advance is the count read. -/
theorem Envelope.envelopeAttachmentCount_eq {rest : Bytes} {count : Nat}
    (h : readHeader data = .ok ((row, count), rest)) : envelopeAttachmentCount data = count := by
  obtain ⟨_, _, hsized, hrest⟩ := Reader.bind_eq_ok.mp h
  obtain ⟨_, hcnt, hpair⟩ := Reader.bind_pure_eq_ok.mp hrest
  cases hpair
  obtain ⟨_, _, hlen, hrow⟩ := Reader.bind_eq_ok.mp hsized
  obtain ⟨word, hleng, rfl, rfl⟩ := faults.readU32_eq_ok hlen
  obtain ⟨hsize, rfl⟩ := Reader.take_eq_ok.mp hrow
  obtain ⟨word₂, hlen₂, rfl, rfl⟩ := faults.readU32_eq_ok hcnt
  have htake : (word ++ (row ++ (word₂ ++ rest))).take 4 = word := by
    rw [take_append_of_le_length (Nat.le_of_eq hleng.symm), ← hleng, take_length]
  have hdrop : (word ++ (row ++ (word₂ ++ rest))).drop (4 + ofLe word) = word₂ ++ rest := by
    rw [← hleng, ← hsize, ← drop_drop, drop_left, drop_left]
  have htake₂ : (word₂ ++ rest).take 4 = word₂ := by
    rw [take_append_of_le_length (Nat.le_of_eq hlen₂.symm), ← hlen₂, take_length]
  have htotal : (word ++ (row ++ (word₂ ++ rest))).length = 4 + ofLe word + 4 + rest.length := by
    simp only [length_append, hleng, hsize, hlen₂]
    omega
  rw [envelopeAttachmentCount, if_neg (by omega)]
  rw [htake, if_neg (by omega), if_neg (by omega), hdrop, htake₂]

/-- **The owner makes no difference**: a null one is passed only where no attachment is read. -/
theorem deserializeEnvelope_eq (data : Bytes) :
    deserializeEnvelope data = deserializeEnvelopeFrom true data := by
  rw [deserializeEnvelope]
  by_cases hcnt : envelopeAttachmentCount data = 0
  · have hread : Envelope.read false data = Envelope.read true data := by
      rw [Envelope.read, Envelope.read]
      cases hhdr : Envelope.readHeader data with
      | error e => rw [Reader.bind_of_error hhdr, Reader.bind_of_error hhdr]
      | ok p =>
        obtain ⟨⟨_, _⟩, _⟩ := p
        rw [Envelope.envelopeAttachmentCount_eq hhdr] at hcnt
        rw [Reader.bind_of_ok hhdr, Reader.bind_of_ok hhdr, hcnt]
        rfl
    rw [hcnt, deserializeEnvelopeFrom, deserializeEnvelopeFrom]
    exact congrArg (fun r => if data.length < 8 then _ else Except.map Prod.fst r) hread
  · rw [bne_iff_ne.mpr hcnt]

/-! ## Refusals -/

namespace WireFaults

open Reader

variable {ε : Type} (f : WireFaults ε)

/-- What a reader with an owner can say. -/
def Wire (e : ε) : Prop := e = f.word ∨ e = f.row ∨ e = f.key ∨ e = f.blob ∨ e = f.zeroByte

theorem fails_readU32 : Fails f.readU32 f.Wire :=
  (fails_take 4 (.inl rfl)).bind fun _ => fails_pure _

theorem fails_readSized {truncated : ε} (h : f.Wire truncated) :
    Fails (f.readSized truncated) f.Wire :=
  f.fails_readU32.bind fun len => fails_take len h

theorem fails_readAttachment : Fails (f.readAttachment true) f.Wire := by
  refine (f.fails_readSized (.inr (.inr (.inl rfl)))).bind fun key => ?_
  refine (f.fails_readSized (.inr (.inr (.inr (.inl rfl))))).bind fun blob => ?_
  rw [Bool.or_true, require_true]
  exact (fails_pure ()).bind fun _ => fails_pure _

theorem fails_readAttachments : ∀ (n : Nat) (b : AttachmentsWireBuilder),
    Fails (f.readAttachments true n b) f.Wire
  | 0, b => fails_pure b
  | n + 1, b => by
    refine f.fails_readAttachment.bind fun e => ?_
    dsimp only
    cases b.append e.1 e.2 with
    | none =>
      intro _ _ h
      cases h
      exact .inr (.inr (.inr (.inr rfl)))
    | some b' => exact fails_readAttachments n b'

end WireFaults

/-- The texts a buffer is refused with. -/
def Envelope.refusals : List String :=
  ["DeserializeEnvelope: buffer too small", "DeserializeEnvelope: unexpected end of buffer",
    "DeserializeEnvelope: row data truncated", "DeserializeEnvelope: key data truncated",
    "DeserializeEnvelope: blob data truncated",
    "DeserializeEnvelope: attachment key contains a zero byte"]

/-- A wire fault: `std::invalid_argument` with one of the texts. -/
def Envelope.IsRefusal (e : Error) : Prop := ∃ what ∈ refusals, e = .invalidArgument what

theorem Envelope.isRefusal_of_wire {e : Error} (h : faults.Wire e) : IsRefusal e := by
  rcases h with rfl | rfl | rfl | rfl | rfl
  · exact ⟨_, by simp [refusals], rfl⟩
  · exact ⟨_, by simp [refusals], rfl⟩
  · exact ⟨_, by simp [refusals], rfl⟩
  · exact ⟨_, by simp [refusals], rfl⟩
  · exact ⟨_, by simp [refusals], rfl⟩

theorem Envelope.fails_read : Reader.Fails (read true) faults.Wire := by
  have hhdr : Reader.Fails readHeader faults.Wire :=
    (faults.fails_readSized (.inr (.inl rfl))).bind fun row =>
      faults.fails_readU32.bind fun count => Reader.fails_pure _
  exact hhdr.bind fun p =>
    (faults.fails_readAttachments p.2 .make).bind fun _ => Reader.fails_pure _

/-- Whatever the buffer, it is refused as a wire fault or not at all. -/
theorem deserializeEnvelope_error {e : Error}
    (h : deserializeEnvelope data = .error e) : Envelope.IsRefusal e := by
  rw [deserializeEnvelope_eq, deserializeEnvelopeFrom] at h
  split at h
  · cases h
    exact ⟨_, by simp [Envelope.refusals], rfl⟩
  · cases hread : Envelope.read true data with
    | error _ =>
      rw [hread] at h
      cases h
      exact Envelope.isRefusal_of_wire (Envelope.fails_read data e hread)
    | ok p =>
      rw [hread] at h
      cases h

theorem Envelope.not_isRefusal_missingOwner : ¬ IsRefusal missingOwner := by
  rintro ⟨_, -, h⟩
  cases h

/-! ## What is read fits -/

namespace WireFaults

open Reader

variable {ε : Type} (f : WireFaults ε)

theorem yields_readU32 : Yields f.readU32 fun n => n < 2 ^ 32 :=
  yields_take.bind fun _ hbs => yields_pure (ofLe_lt_four hbs)

theorem yields_readSized {truncated : ε} :
    Yields (f.readSized truncated) fun bs => bs.length < 2 ^ 32 :=
  f.yields_readU32.bind fun _ hlen => yields_take.mono fun _ hbs => hbs ▸ hlen

theorem yields_readAttachment (owned : Bool) :
    Yields (f.readAttachment owned) fun e => e.1.length < 2 ^ 32 ∧ e.2.length < 2 ^ 32 :=
  f.yields_readSized.bind fun _ hkey =>
    f.yields_readSized.bind fun _ hblob =>
      yields_after fun _ => yields_pure ⟨hkey, hblob⟩

/-- A builder of entries that fit, at most `n` of them. -/
def Bounded (n : Nat) (b : AttachmentsWireBuilder) : Prop :=
  b.entries.length ≤ n ∧ ∀ e ∈ b.entries, e.1.length < 2 ^ 32 ∧ e.2.length < 2 ^ 32

theorem bounded_append {b b' : AttachmentsWireBuilder} {e : Bytes × Bytes}
    (hb : Bounded n b) (he : e.1.length < 2 ^ 32 ∧ e.2.length < 2 ^ 32)
    (h : b.append e.1 e.2 = some b') : Bounded (n + 1) b' := by
  obtain ⟨hkey, hopen⟩ := noZero_of_append h
  obtain ⟨b'', hb'', hents, -⟩ := append_eq_some e.2 hopen hkey
  obtain rfl : b' = b'' := Option.some.inj (h.symm.trans hb'')
  refine ⟨?_, ?_⟩
  · rw [hents, length_append]
    exact Nat.succ_le_succ hb.1
  · intro x hx
    rw [hents] at hx
    rcases mem_append.mp hx with hx | hx
    · exact hb.2 x hx
    · rwa [mem_singleton.mp hx]

theorem yields_readAttachments (owned : Bool) : ∀ (n m : Nat) (b : AttachmentsWireBuilder),
    Bounded m b → Yields (f.readAttachments owned n b) (Bounded (m + n))
  | 0, _, _, hb => yields_pure hb
  | n + 1, m, b, hb => by
    refine (f.yields_readAttachment owned).bind fun e he => ?_
    dsimp only
    cases happ : b.append e.1 e.2 with
    | none => exact yields_fail _
    | some b' =>
      have ih := yields_readAttachments owned n (m + 1) b' (bounded_append hb he happ)
      rwa [Nat.add_right_comm] at ih

/-- Sorting and dropping duplicates keeps what fits. -/
theorem fits_published {b : AttachmentsWireBuilder} (hb : Bounded n b)
    (hn : n < 2 ^ 32) (hrow : row.length < 2 ^ 32) :
    Envelope.Fits ⟨row, b.finish.published⟩ where
  row := hrow
  count := by
    rw [published_finish]
    have hbld := SortedMap.length_build_le b.entries
    have hlen := hb.1
    omega
  entry := by
    rw [published_finish]
    exact fun e he => hb.2 e (SortedMap.mem_build he)

theorem yields_published (owned : Bool) (hn : n < 2 ^ 32) (hrow : row.length < 2 ^ 32) :
    Yields (f.readAttachments owned n .make) fun b =>
      Envelope.Fits ⟨row, b.finish.published⟩ := by
  have hemp : Bounded 0 .make := ⟨Nat.le_refl _, fun _ h => absurd h not_mem_nil⟩
  refine (f.yields_readAttachments owned n 0 .make hemp).mono fun b hb => ?_
  rw [Nat.zero_add] at hb
  exact fits_published hb hn hrow

end WireFaults

theorem Envelope.yields_read (owned : Bool) : Reader.Yields (read owned) Fits := by
  have hhdr : Reader.Yields readHeader fun p => p.1.length < 2 ^ 32 ∧ p.2 < 2 ^ 32 :=
    faults.yields_readSized.bind fun row hrow =>
      faults.yields_readU32.bind fun count hcnt => Reader.yields_pure ⟨hrow, hcnt⟩
  exact hhdr.bind fun p hp =>
    (faults.yields_published owned hp.2 hp.1).bind fun b hb => Reader.yields_pure hb

/-- Nothing longer than its length word comes out of a buffer. -/
theorem fits_of_deserializeEnvelope (h : deserializeEnvelope data = .ok env) : env.Fits := by
  unfold deserializeEnvelope deserializeEnvelopeFrom at h
  split at h
  · cases h
  · obtain ⟨p, hread, rfl⟩ := map_eq_ok_iff.mp h
    exact Envelope.yields_read _ data p.1 p.2 hread

/-- Whole bytes that the reader makes an envelope of. -/
theorem deserializeEnvelope_of_reads
    (h : Reader.Reads (Envelope.read true) bs env) (hlen : 8 ≤ bs.length) :
    deserializeEnvelope bs = .ok env := by
  have hread := h []
  rw [append_nil] at hread
  rw [deserializeEnvelope_eq, deserializeEnvelopeFrom, if_neg (Nat.not_lt.mpr hlen), hread]
  rfl

theorem deserializeEnvelope_serializeEnvelope (h : env.Fits) :
    deserializeEnvelope (serializeEnvelope env) = .ok env := by
  rw [deserializeEnvelope_eq, deserializeEnvelopeFrom_serializeEnvelope h]

/-! ## The codec -/

/-- **The envelope codec.** What fits is read back as it was; the bytes are a function of the
row and the map, whatever history of `Set` calls led to it; and the overload without an owner
is the one with an owner, on every buffer, so it never says that an owner is missing. -/
theorem envelopeCodec : (∀ env : Envelope, env.Fits →
      deserializeEnvelope (serializeEnvelope env) = .ok env ∧
        deserializeEnvelopeFrom true (serializeEnvelope env) = .ok env) ∧
    (∀ (row : Bytes) (history history' : List (Bytes × Bytes)) (a a' : Attachments),
      Attachments.setAll history .empty = .ok a → Attachments.setAll history' .empty = .ok a' →
      (∀ key, a.find key = a'.find key) →
      serializeEnvelope ⟨row, a⟩ = serializeEnvelope ⟨row, a'⟩) ∧
    (∀ data : Bytes, deserializeEnvelope data = deserializeEnvelopeFrom true data ∧
      deserializeEnvelope data ≠ .error missingOwner) := by
  refine ⟨?_, ?_, ?_⟩
  · intro env hfits
    exact ⟨deserializeEnvelope_serializeEnvelope hfits,
      deserializeEnvelopeFrom_serializeEnvelope hfits⟩
  · intro row _ _ a a' _ _ hsame
    rw [Attachments.ext_find hsame]
  · intro data
    refine ⟨deserializeEnvelope_eq data, fun h => ?_⟩
    exact Envelope.not_isRefusal_missingOwner (deserializeEnvelope_error h)

/-- Two histories of one map, with a key set twice in the first. -/
theorem envelopeCodec_histories :
    ∃ a, Attachments.setAll [([98], [1]), ([97], []), ([98], [2, 3])] .empty = .ok a ∧
      Attachments.setAll [([97], []), ([98], [2, 3])] .empty = .ok a ∧
      deserializeEnvelope (serializeEnvelope ⟨[7], a⟩) = .ok ⟨[7], a⟩ := by
  refine ⟨⟨[([97], []), ([98], [2, 3])], by decide, by decide⟩, by decide, by decide, ?_⟩
  exact (envelopeCodec.1 _ ⟨by decide, by decide, by decide⟩).1

end Fletcher.Core
