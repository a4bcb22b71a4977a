import Fletcher.Core.Envelope
import Fletcher.Core.Window

/-!
# The body of a Fast DDS sample, and what narrowing a length loses

`EncodeEnvelopeBody` writes an envelope straight into the window it is given: the row goes
in behind a placeholder that is patched once its length is known. `ParseEnvelopeBody` is its
reader, which drops a sample instead of throwing.

Four writers of the repository narrow a length to 32 bits without looking at it. Every length
a reader hands back came out of four bytes, so nothing longer can be recovered
(`no_truncation_iff`): each writer keeps its input exactly when every length it narrows is
below 2^32, or when its window is too small and it throws.
-/

namespace Fletcher.FastDds

open Lib Fletcher.Core List

/-! ## Writing -/

/-- A `RowEncoder`: appends a row to the buffer it is lent. -/
abbrev RowEncoder := Window → Except Error Window

/-- A blob behind its narrowed length, which may leave nothing of it to append. -/
def appendBlob (w : Window) (blob : Bytes) : Except Error Window := do
  let blobLen := blob.length % 2 ^ 32
  let w ← w.appendU32 blobLen
  if blobLen > 0 then w.append (blob.take blobLen) else pure w

/-- The loop over the attachments. -/
def appendAttachments : List (Bytes × Bytes) → Window → Except Error Window
  | [], w => .ok w
  | (key, blob) :: es, w => do
    let w ← w.appendU32 key.length
    let w ← w.append key
    let w ← appendBlob w blob
    appendAttachments es w

def encodeEnvelopeBody (w : Window) (encoder : RowEncoder) (attachments : Attachments) :
    Except Error Window := do
  let (rowLenPos, w) ← w.writeLengthPlaceholder
  let rowStart := w.position
  let w ← encoder w
  let w ← w.patchU32 rowLenPos (w.position - rowStart)
  let w ← w.appendU32 attachments.entries.length
  appendAttachments attachments.entries w

/-! ## Reading -/

/-- Every malformation is the same refusal. -/
def faults : WireFaults Unit := ⟨(), (), (), (), (), ()⟩

/-- A body that ends behind its row has no attachments. The count is bounded by what is left
before the loop starts. -/
def readBody (owned : Bool) : Reader Unit (Bytes × Attachments) := do
  let row ← faults.readSized ()
  let left ← Reader.remaining
  if left < 4 then pure (row, AttachmentsWireBuilder.make.finish.published)
  else do
    let count ← faults.readU32
    let left ← Reader.remaining
    Reader.require () (count ≤ left / 8)
    let build ← faults.readAttachments owned count .make
    pure (row, build.finish.published)

/-- `ParseEnvelopeBody`: the row and the attachments, or `none` for `false`. -/
def parseEnvelopeBody (owned : Bool) (data : Bytes) : Option (Bytes × Attachments) :=
  match readBody owned data with
  | .ok (body, _) => some body
  | .error () => none

/-! ## What the encoder appends -/

/-- The encoder does what a row encoder is for: the row, appended, and nothing else. -/
def Appends (encoder : RowEncoder) (row : Bytes) : Prop := ∀ w, encoder w = w.append row

theorem appendBlob_eq (w : Window) (blob : Bytes) : appendBlob w blob =
    w.append (leBytes 4 blob.length ++ blob.take (blob.length % 2 ^ 32)) := by
  rw [← Window.append_append, ← Window.leBytes_four_mod]
  refine congrArg (fun f => w.append _ >>= f) (funext fun w => ?_)
  by_cases h : blob.length % 2 ^ 32 > 0
  · rw [if_pos h]
  · rw [if_neg h, Nat.eq_zero_of_not_pos h, take_zero, Window.append_nil]
    rfl

theorem appendAttachments_eq : ∀ (es : List (Bytes × Bytes)) (w : Window),
    appendAttachments es w = w.append (es.flatMap attachmentBytes)
  | [], w => w.append_nil.symm
  | (key, blob) :: es, w => by
    simp only [appendAttachments, appendBlob_eq, appendAttachments_eq es, Window.appendU32,
      Window.append_append, flatMap_cons, attachmentBytes, append_assoc]

/-- Patching the placeholder in front of a row is writing its length there at once. -/
theorem append_patchU32 (w : Window) (row : Bytes) : (w.append (leBytes 4 0 ++ row) >>= fun w' =>
      w'.patchU32 w.position (w'.position - (w.position + 4))) =
    w.append (leBytes 4 row.length ++ row) := by
  have hlen : (leBytes 4 0 ++ row).length = (leBytes 4 row.length ++ row).length := by
    simp only [length_append, leBytes_length]
  by_cases hroom : w.HasRoom (leBytes 4 0 ++ row).length
  · obtain ⟨w', hw', hc, hby⟩ := Window.append_of_hasRoom hroom
    have hpos : w'.position = w.position + (4 + row.length) := by
      rw [Window.position, hby, Window.position]
      simp only [length_append, leBytes_length]
    rw [hw', ok_bind]
    refine Eq.symm ?_
    rw [Window.patchU32, dif_neg (by omega), Window.append_eq_ok]
    refine ⟨hlen ▸ hroom, hc, ?_⟩
    have htake : w'.bytes.take w.position = w.bytes := by
      rw [hby, Window.position, take_left]
    have hdrop : w'.bytes.drop (w.position + 4) = row := by
      rw [hby, Window.position, ← drop_drop, drop_left]
      exact drop_left' (leBytes_length 4 0)
    have hsize : w'.position - (w.position + 4) = row.length := by omega
    simp only [htake, hdrop, hsize, append_assoc]
  · rw [Window.append_of_full hroom, Window.append_of_full (hlen ▸ hroom)]
    rfl

/-- The body's bytes are the envelope's. -/
theorem encodeEnvelopeBody_eq {encoder : RowEncoder} {row : Bytes} (h : Appends encoder row)
    (w : Window) (a : Attachments) :
    encodeEnvelopeBody w encoder a = w.append (serializeEnvelope ⟨row, a⟩) := by
  have hrest : ∀ w : Window, (w.appendU32 a.entries.length >>= fun w =>
      appendAttachments a.entries w) = w.append (attachmentsBytes a) := by
    intro w
    simp only [appendAttachments_eq, Window.appendU32, Window.append_append, attachmentsBytes]
  rw [serializeEnvelope, ← Window.append_append, ← append_patchU32, ← Window.append_append]
  unfold encodeEnvelopeBody Window.writeLengthPlaceholder Window.appendU32
  cases hpl : w.append (leBytes 4 0) with
  | error e => rfl
  | ok w₁ =>
    have hpos : w₁.position = w.position + 4 := by
      rw [Window.position, (Window.append_eq_ok.mp hpl).2.2, length_append, leBytes_length]
      rfl
    rw [← hpos]
    show (encoder w₁ >>= fun w₂ => w₂.patchU32 w.position (w₂.position - w₁.position) >>=
      fun w => w.appendU32 a.entries.length >>= fun w => appendAttachments a.entries w) = _
    simp only [h w₁, hrest]
    cases hrow : w₁.append row with
    | error e =>
      rw [ok_bind, hrow]
      rfl
    | ok w₂ =>
      rw [ok_bind, ok_bind, hrow]
      rfl

/-! ## Reading the body back -/

theorem eight_mul_le : ∀ (es : List (Bytes × Bytes)),
    8 * es.length ≤ (es.flatMap attachmentBytes).length
  | [] => Nat.zero_le _
  | e :: es => by
    have ih := eight_mul_le es
    simp only [flatMap_cons, length_append, length_cons, attachmentBytes,
      leBytes_length]
    omega

open Reader

theorem reads_readBody {env : Envelope} (h : env.Fits) :
    Reads (readBody true) (serializeEnvelope env) (env.row, env.attachments) := by
  obtain ⟨b, hb, hreads⟩ := faults.reads_attachments h.entry
  refine (faults.reads_readSized h.row).bind (reads_remaining_bind fun left hleft => ?_)
  have hcnt : ¬ left < 4 := by
    rw [attachmentsBytes, length_append, leBytes_length] at hleft
    omega
  rw [if_neg hcnt, attachmentsBytes]
  refine (faults.reads_readU32 h.count).bind (reads_remaining_bind fun left hleft => ?_)
  -- each attachment takes its two length words at least
  have hbnd : decide (env.attachments.entries.length ≤ left / 8) = true := by
    have hsize := eight_mul_le env.attachments.entries
    rw [decide_eq_true_eq]
    omega
  rw [hbnd, require_true]
  have hbody := hreads.bind_pure (f := fun build => (env.row, build.finish.published))
  rw [hb] at hbody
  exact (reads_pure ()).after hbody

theorem parseEnvelopeBody_eq_some {owned : Bool} {data : Bytes} {body : Bytes × Attachments} :
    parseEnvelopeBody owned data = some body ↔ ∃ rest, readBody owned data = .ok (body, rest) := by
  unfold parseEnvelopeBody
  cases readBody owned data with
  | error e => simp
  | ok p => simp [Prod.ext_iff]

theorem yields_readBody (owned : Bool) :
    Yields (readBody owned) fun body => Envelope.Fits ⟨body.1, body.2⟩ := by
  refine faults.yields_readSized.bind fun row hrow => yields_after fun left => ?_
  by_cases hleft : left < 4
  · rw [if_pos hleft]
    exact yields_pure ⟨hrow, Nat.two_pow_pos 32, fun _ he => absurd he not_mem_nil⟩
  · rw [if_neg hleft]
    refine faults.yields_readU32.bind fun count hcnt => yields_after fun _ =>
      yields_after fun _ => ?_
    exact (faults.yields_published owned hcnt hrow).bind fun b hb => yields_pure hb

/-- What is written is read back exactly when every length fits its word. -/
theorem parseEnvelopeBody_serializeEnvelope (env : Envelope) :
    parseEnvelopeBody true (serializeEnvelope env) = some (env.row, env.attachments) ↔
      env.Fits := by
  constructor
  · intro hpar
    obtain ⟨rest, hread⟩ := parseEnvelopeBody_eq_some.mp hpar
    exact yields_readBody true _ (env.row, env.attachments) rest hread
  · intro hfits
    have hread := reads_readBody hfits []
    rw [append_nil] at hread
    exact parseEnvelopeBody_eq_some.mpr ⟨[], hread⟩

theorem recovers_encodeEnvelopeBody {encoder : RowEncoder} {row : Bytes}
    (h : Appends encoder row) (w : Window) (a : Attachments) :
    w.Recovers (encodeEnvelopeBody w encoder a)
        (fun bs => parseEnvelopeBody true bs = some (row, a)) ↔
      (w.HasRoom (serializeEnvelope ⟨row, a⟩).length → Envelope.Fits ⟨row, a⟩) := by
  rw [encodeEnvelopeBody_eq h, Window.recovers_append]
  exact imp_congr_right fun _ => parseEnvelopeBody_serializeEnvelope ⟨row, a⟩

/-! ## No silent truncation -/

/-- **A length is truncated silently exactly from 2^32 on.** Each writer either refuses or
writes what its reader recovers, for exactly those inputs whose lengths and counts fit the
words they are narrowed to, unless a fixed window is too small for what would be written. -/
theorem no_truncation_iff (w : Window) (s data : Bytes) (env : Envelope) {encoder : RowEncoder}
    (h : Appends encoder env.row) :
    (w.Recovers (w.writeString s) (fun bs => Reads PositionalReader.readString bs s) ↔
      (w.HasRoom (4 + s.length % 2 ^ 32) → s.length < 2 ^ 32)) ∧
    (w.Recovers (w.writeBinary data) (fun bs => Reads PositionalReader.readString bs data) ↔
      (w.HasRoom (4 + data.length) → data.length < 2 ^ 32)) ∧
    (deserializeEnvelope (serializeEnvelope env) = .ok env ↔ env.Fits) ∧
    (w.Recovers (encodeEnvelopeBody w encoder env.attachments)
        (fun bs => parseEnvelopeBody true bs = some (env.row, env.attachments)) ↔
      (w.HasRoom (serializeEnvelope env).length → env.Fits)) := by
  refine ⟨w.recovers_writeString s, w.recovers_writeBinary data, ?_,
    recovers_encodeEnvelopeBody h w env.attachments⟩
  exact ⟨fits_of_deserializeEnvelope, deserializeEnvelope_serializeEnvelope⟩

/-- A row of one byte and no attachments, into a buffer that grows. -/
theorem no_truncation_oneByte :
    Window.growable.Recovers (encodeEnvelopeBody .growable (·.append [7]) .empty)
      (fun bs => parseEnvelopeBody true bs = some ([7], .empty)) :=
  (no_truncation_iff .growable [] [] ⟨[7], .empty⟩ fun _ => rfl).2.2.2.mpr
    fun _ => ⟨by decide, by decide, by decide⟩

/-- A string of 2^32 bytes: its length is written as zero, nothing of it follows, and its
reader makes an empty string of that. -/
theorem writeString_loses :
    ∃ (s : Bytes) (w : Window), s.length = 2 ^ 32 ∧ Window.growable.writeString s = .ok w ∧
      PositionalReader.readString w.bytes = .ok ([], []) ∧ s ≠ [] := by
  have hlen : (replicate (2 ^ 32) (97 : UInt8)).length = 2 ^ 32 := length_replicate
  generalize replicate (2 ^ 32) (97 : UInt8) = s at hlen
  have hwrite : Window.growable.writeString s = Window.growable.append [0, 0, 0, 0] := by
    rw [Window.writeString_eq, ← Window.leBytes_four_mod, hlen, Nat.mod_self, take_zero]
    rfl
  refine ⟨s, ⟨none, [0, 0, 0, 0], fun _ h => by cases h⟩, hlen, hwrite.trans rfl, rfl, ?_⟩
  rintro rfl
  cases hlen

end Fletcher.FastDds
