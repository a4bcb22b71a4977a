import Fletcher.FastDds.EnvelopeCodec

/-!
# Two readers of one envelope

`DeserializeEnvelope` and `ParseEnvelopeBody` were written apart. One throws six texts and the
other returns `false`; one compares sums with the size and the other differences; one bounds
the attachment count before its loop and the other lets the loop run out of bytes. On the
bytes both get past the row with, none of this shows: they accept the same, with the same row
and the same attachments.

They part where the bytes end before the count is complete. `DeserializeEnvelope` refuses
that. `ParseEnvelopeBody` reads it as no attachments, and it does so for one, two or three
bytes behind the row as well as for none.
-/

namespace Fletcher.FastDds

open Lib Fletcher.Core Reader List

variable {owned : Bool} {data rest : Bytes}

/-! ## The shared loop -/

section Faults

variable {ε δ : Type} (f : WireFaults ε) (g : WireFaults δ)

theorem same_readU32 : Same f.readU32 g.readU32 :=
  same_take.bind fun _ => same_pure

theorem same_readSized (e : ε) (d : δ) : Same (f.readSized e) (g.readSized d) :=
  (same_readU32 f g).bind fun _ => same_take

theorem same_readAttachment (owned : Bool) :
    Same (f.readAttachment owned) (g.readAttachment owned) :=
  (same_readSized f g f.key g.key).bind fun _ =>
    (same_readSized f g f.blob g.blob).bind fun _ =>
      same_require.bind fun _ => same_pure

theorem same_readAttachments (owned : Bool) : ∀ (n : Nat) (b : AttachmentsWireBuilder),
    Same (f.readAttachments owned n b) (g.readAttachments owned n b)
  | 0, b => same_pure
  | n + 1, b => by
    refine (same_readAttachment f g owned).bind fun e => ?_
    dsimp only
    cases b.append e.1 e.2 with
    | none => exact same_fail
    | some b' => exact same_readAttachments owned n b'

theorem readSized_eq_ok {e : ε} {bs a : Bytes} (h : f.readSized e bs = .ok (a, rest)) :
    ∃ word : Bytes, word.length = 4 ∧ ofLe word = a.length ∧ bs = word ++ (a ++ rest) := by
  obtain ⟨_, _, hlen, htake⟩ := bind_eq_ok.mp h
  obtain ⟨word, hword, rfl, rfl⟩ := f.readU32_eq_ok hlen
  obtain ⟨hleng, rfl⟩ := take_eq_ok.mp htake
  exact ⟨word, hword, hleng.symm, rfl⟩

/-- An attachment takes its two length words at least. -/
theorem readAttachment_takes {bs : Bytes} {e : Bytes × Bytes}
    (h : f.readAttachment owned bs = .ok (e, rest)) : 8 + rest.length ≤ bs.length := by
  obtain ⟨_, _, hkey, hrest⟩ := bind_eq_ok.mp h
  obtain ⟨_, _, hblob, hrest'⟩ := bind_eq_ok.mp hrest
  obtain ⟨u, _, hreq, hpure⟩ := bind_eq_ok.mp hrest'
  obtain ⟨-, rfl⟩ := require_eq_ok.mp hreq
  obtain ⟨-, rfl⟩ := pure_eq_ok.mp hpure
  obtain ⟨_, hword, -, rfl⟩ := readSized_eq_ok f hkey
  obtain ⟨_, hword', -, rfl⟩ := readSized_eq_ok f hblob
  simp only [length_append, hword, hword']
  omega

/-- So a loop that comes to its end had eight bytes for each. -/
theorem readAttachments_takes : ∀ {n : Nat} {b b' : AttachmentsWireBuilder}
    {bs rest : Bytes}, f.readAttachments owned n b bs = .ok (b', rest) →
    8 * n + rest.length ≤ bs.length
  | 0, b, b', bs, rest, h => by
    obtain ⟨-, rfl⟩ := pure_eq_ok.mp h
    omega
  | n + 1, b, b', bs, rest, h => by
    obtain ⟨e, _, hatt, hloop⟩ := bind_eq_ok.mp h
    have hone := readAttachment_takes f hatt
    cases happ : b.append e.1 e.2 with
    | none =>
      simp only [happ] at hloop
      cases hloop
    | some _ =>
      simp only [happ] at hloop
      have hmore := readAttachments_takes hloop
      omega

end Faults

/-! ## Behind the row -/

/-- The row is there, and fewer than four bytes behind it. -/
def LacksCount (data row : Bytes) : Prop :=
  ∃ word rest : Bytes, word.length = 4 ∧ ofLe word = row.length ∧ data = word ++ (row ++ rest) ∧
    rest.length < 4

/-- The attachments as `DeserializeEnvelope` reads them. -/
def coreAttachments (owned : Bool) : Reader Error Attachments := do
  let count ← Envelope.faults.readU32
  let build ← Envelope.faults.readAttachments owned count .make
  pure build.finish.published

/-- The attachments as `ParseEnvelopeBody` reads them when there are four bytes to begin with. -/
def bodyAttachments (owned : Bool) : Reader Unit Attachments := do
  let count ← faults.readU32
  let left ← Reader.remaining
  Reader.require () (count ≤ left / 8)
  let build ← faults.readAttachments owned count .make
  pure build.finish.published

/-- The bound on the count turns away nothing the loop would have come through. -/
theorem same_attachments (owned : Bool) : Same (bodyAttachments owned) (coreAttachments owned) := by
  refine (same_readU32 faults Envelope.faults).bind fun count => ?_
  refine Same.of_check (c := fun left => decide (count ≤ left / 8)) ?_ ?_
  · exact (same_readAttachments faults Envelope.faults owned count .make).bind fun build =>
      same_pure
  · intro _ p hread
    obtain ⟨build, _, hloop, -⟩ := bind_eq_ok.mp hread
    have htakes := readAttachments_takes Envelope.faults hloop
    rw [decide_eq_true_eq]
    omega

theorem read_eq_ok {env : Envelope} : Envelope.read owned data = .ok (env, rest) ↔
      ∃ mid, Envelope.faults.readSized Envelope.faults.row data = .ok (env.row, mid) ∧
        coreAttachments owned mid = .ok (env.attachments, rest) := by
  constructor
  · intro h
    obtain ⟨⟨row, count⟩, mid, hhdr, hloop⟩ := bind_eq_ok.mp h
    obtain ⟨build, hbld, rfl⟩ := bind_pure_eq_ok.mp hloop
    obtain ⟨_, mid', hrow, hcnt⟩ := bind_eq_ok.mp hhdr
    obtain ⟨_, hword, hsame⟩ := bind_pure_eq_ok.mp hcnt
    cases hsame
    exact ⟨mid', hrow, bind_eq_ok.mpr ⟨_, _, hword, bind_eq_ok.mpr ⟨_, _, hbld, rfl⟩⟩⟩
  · rintro ⟨mid, hrow, hatt⟩
    obtain ⟨count, mid', hword, hloop⟩ := bind_eq_ok.mp hatt
    obtain ⟨build, hbld, hpub⟩ := bind_pure_eq_ok.mp hloop
    refine bind_eq_ok.mpr ⟨(env.row, count), mid', ?_, bind_pure_eq_ok.mpr ⟨build, hbld, ?_⟩⟩
    · exact bind_eq_ok.mpr ⟨_, _, hrow, bind_eq_ok.mpr ⟨_, _, hword, rfl⟩⟩
    · rw [hpub]

theorem readBody_eq_ok {body : Bytes × Attachments} : readBody owned data = .ok (body, rest) ↔
      ∃ mid, faults.readSized () data = .ok (body.1, mid) ∧
        if mid.length < 4 then body.2 = .empty ∧ rest = mid
        else bodyAttachments owned mid = .ok (body.2, rest) := by
  obtain ⟨row, _⟩ := body
  constructor
  · intro h
    obtain ⟨_, mid, hrow, hrest⟩ := bind_eq_ok.mp h
    rw [bind_of_ok remaining_apply] at hrest
    by_cases hleft : mid.length < 4
    · rw [if_pos hleft] at hrest
      obtain ⟨hpair, rfl⟩ := pure_eq_ok.mp hrest
      cases hpair
      exact ⟨mid, hrow, by rw [if_pos hleft]; exact ⟨rfl, rfl⟩⟩
    · rw [if_neg hleft] at hrest
      obtain ⟨count, mid', hword, hche⟩ := bind_eq_ok.mp hrest
      obtain ⟨left, mid'', hleft', hbnd⟩ := bind_eq_ok.mp hche
      obtain ⟨u, last, hreq, hloop⟩ := bind_eq_ok.mp hbnd
      obtain ⟨build, hbld, hpair⟩ := bind_pure_eq_ok.mp hloop
      cases hpair
      refine ⟨mid, hrow, ?_⟩
      rw [if_neg hleft]
      exact bind_eq_ok.mpr ⟨_, _, hword, bind_eq_ok.mpr ⟨_, _, hleft',
        bind_eq_ok.mpr ⟨_, _, hreq, bind_eq_ok.mpr ⟨_, _, hbld, rfl⟩⟩⟩⟩
  · rintro ⟨mid, hrow, hrest⟩
    refine bind_eq_ok.mpr ⟨row, mid, hrow, ?_⟩
    rw [bind_of_ok remaining_apply]
    by_cases hleft : mid.length < 4
    · rw [if_pos hleft] at hrest ⊢
      obtain ⟨hemp, rfl⟩ := hrest
      rw [pure_apply]
      exact congrArg (fun a => Except.ok ((row, a), rest)) hemp.symm
    · rw [if_neg hleft] at hrest ⊢
      obtain ⟨count, mid', hword, hche⟩ := bind_eq_ok.mp hrest
      obtain ⟨left, mid'', hleft', hbnd⟩ := bind_eq_ok.mp hche
      obtain ⟨u, last, hreq, hloop⟩ := bind_eq_ok.mp hbnd
      obtain ⟨build, hbld, rfl⟩ := bind_pure_eq_ok.mp hloop
      exact bind_eq_ok.mpr ⟨_, _, hword, bind_eq_ok.mpr ⟨_, _, hleft',
        bind_eq_ok.mpr ⟨_, _, hreq, bind_eq_ok.mpr ⟨_, _, hbld, rfl⟩⟩⟩⟩

/-! ## The two readers -/

theorem coreAttachments_short {bs : Bytes} (h : bs.length < 4)
    (p : Attachments × Bytes) : coreAttachments owned bs ≠ .ok p := by
  intro hread
  obtain ⟨_, _, hword, -⟩ := bind_eq_ok.mp hread
  obtain ⟨_, _, -, rfl⟩ := Envelope.faults.readU32_eq_ok hword
  rw [length_append] at h
  omega

theorem deserializeEnvelopeFrom_eq_ok {env : Envelope} :
    deserializeEnvelopeFrom owned data = .ok env ↔
      ∃ rest, Envelope.read owned data = .ok (env, rest) := by
  rw [deserializeEnvelopeFrom]
  constructor
  · intro h
    split at h
    · cases h
    · obtain ⟨p, hread, rfl⟩ := map_eq_ok_iff.mp h
      exact ⟨p.2, hread⟩
  · rintro ⟨rest, hread⟩
    -- What can be read has its two words.
    have hsize : ¬ data.length < 8 := by
      obtain ⟨mid, hrow, hatt⟩ := read_eq_ok.mp hread
      obtain ⟨_, _, -, rfl⟩ := readSized_eq_ok _ hrow
      have hmid : ¬ mid.length < 4 := fun hsht => coreAttachments_short hsht _ hatt
      simp only [length_append]
      omega
    rw [if_neg hsize, hread]
    rfl

/-- What `ParseEnvelopeBody` accepts: what `DeserializeEnvelope` accepts, and a row with no
whole count behind it. -/
theorem parseEnvelopeBody_iff {row : Bytes} {a : Attachments} :
    parseEnvelopeBody owned data = some (row, a) ↔
      deserializeEnvelopeFrom owned data = .ok ⟨row, a⟩ ∨ (LacksCount data row ∧ a = .empty) := by
  rw [parseEnvelopeBody_eq_some, deserializeEnvelopeFrom_eq_ok]
  constructor
  · rintro ⟨rest, hread⟩
    obtain ⟨mid, hrow, hrest⟩ := readBody_eq_ok.mp hread
    by_cases hleft : mid.length < 4
    · rw [if_pos hleft] at hrest
      obtain ⟨word, hword, hlen, hdata⟩ := readSized_eq_ok _ hrow
      exact .inr ⟨⟨word, mid, hword, hlen, hdata, hleft⟩, hrest.1⟩
    · rw [if_neg hleft] at hrest
      refine .inl ⟨rest, read_eq_ok.mpr ⟨mid, ?_, ?_⟩⟩
      · exact (same_readSized faults Envelope.faults () _ data _).mp hrow
      · exact (same_attachments owned mid _).mp hrest
  · rintro (⟨rest, hread⟩ | ⟨⟨word, rest, hword, hlen, rfl, hsht⟩, rfl⟩)
    · obtain ⟨mid, hrow, hatt⟩ := read_eq_ok.mp hread
      have hleft : ¬ mid.length < 4 := fun hsht => coreAttachments_short hsht _ hatt
      refine ⟨rest, readBody_eq_ok.mpr ⟨mid, ?_, ?_⟩⟩
      · exact (same_readSized faults Envelope.faults () _ data _).mpr hrow
      · rw [if_neg hleft]
        exact (same_attachments owned mid _).mpr hatt
    · refine ⟨rest, readBody_eq_ok.mpr ⟨rest, ?_, by rw [if_pos hsht]; exact ⟨rfl, rfl⟩⟩⟩
      refine bind_eq_ok.mpr ⟨row.length, row ++ rest, ?_, take_eq_ok.mpr ⟨rfl, rfl⟩⟩
      exact bind_eq_ok.mpr ⟨word, row ++ rest, take_eq_ok.mpr ⟨hword, rfl⟩, by rw [hlen]; rfl⟩

/-- A body without a whole count is not an envelope. -/
theorem not_deserializeEnvelopeFrom {row : Bytes} (h : LacksCount data row)
    (env : Envelope) : deserializeEnvelopeFrom owned data ≠ .ok env := by
  intro hok
  obtain ⟨_, _, hword, hlen, rfl, hsht⟩ := h
  obtain ⟨_, hread⟩ := deserializeEnvelopeFrom_eq_ok.mp hok
  obtain ⟨_, hrow, hatt⟩ := read_eq_ok.mp hread
  obtain ⟨_, hword', hlen', hdata⟩ := readSized_eq_ok _ hrow
  -- The two ways to cut the row off are one.
  obtain ⟨rfl, hbeh⟩ := append_inj hdata (hword.trans hword'.symm)
  obtain ⟨-, rfl⟩ := append_inj hbeh (hlen.symm.trans hlen')
  exact coreAttachments_short hsht _ hatt

/-- A null owner is passed only where there is nothing to own, and makes no difference there. -/
theorem parseEnvelopeBody_owner (data : Bytes) :
    parseEnvelopeBody (decide (envelopeAttachmentCount data > 0)) data =
      parseEnvelopeBody true data := by
  have howned : decide (envelopeAttachmentCount data > 0) =
      (envelopeAttachmentCount data != 0) := by
    rw [Bool.eq_iff_iff, decide_eq_true_iff, bne_iff_ne]
    omega
  have hcore : deserializeEnvelopeFrom (decide (envelopeAttachmentCount data > 0)) data =
      deserializeEnvelopeFrom true data := by
    rw [howned]
    exact deserializeEnvelope_eq data
  refine Option.ext fun body => ?_
  obtain ⟨_, a⟩ := body
  rw [parseEnvelopeBody_iff, parseEnvelopeBody_iff, hcore]

/-- **The body against the envelope.** The bytes written are the envelope's; an envelope is read
as the body it is; and a body that is no envelope is a row with fewer than four bytes behind it,
read as a row without attachments. -/
theorem envelopeBody_agrees :
    (∀ (w : Window) (encoder : RowEncoder) (row : Bytes) (a : Attachments), Appends encoder row →
      Envelope.Fits ⟨row, a⟩ →
      encodeEnvelopeBody w encoder a = w.append (serializeEnvelope ⟨row, a⟩)) ∧
    (∀ (owned : Bool) (data : Bytes) (env : Envelope),
      deserializeEnvelopeFrom owned data = .ok env →
      parseEnvelopeBody owned data = some (env.row, env.attachments)) ∧
    (∀ (owned : Bool) (data row : Bytes) (a : Attachments),
      (parseEnvelopeBody owned data = some (row, a) ∧
        ∀ env, deserializeEnvelopeFrom owned data ≠ .ok env) ↔
      (LacksCount data row ∧ a = .empty)) := by
  refine ⟨fun w encoder row a happends _ => encodeEnvelopeBody_eq happends w a,
    fun owned data env h => parseEnvelopeBody_iff.mpr (.inl h), fun owned data row a => ⟨?_, ?_⟩⟩
  · rintro ⟨hparse, hrefused⟩
    rcases parseEnvelopeBody_iff.mp hparse with hok | hlacks
    · exact absurd hok (hrefused _)
    · exact hlacks
  · intro hlacks
    exact ⟨parseEnvelopeBody_iff.mpr (.inr hlacks), not_deserializeEnvelopeFrom hlacks.1⟩

/-- A row of no bytes, one attachment with a key and no blob. -/
theorem envelopeBody_agrees_one :
    deserializeEnvelopeFrom true [0, 0, 0, 0, 1, 0, 0, 0, 1, 0, 0, 0, 97, 0, 0, 0, 0] =
        .ok ⟨[], ⟨[([97], [])], by decide, by decide⟩⟩ ∧
      parseEnvelopeBody true [0, 0, 0, 0, 1, 0, 0, 0, 1, 0, 0, 0, 97, 0, 0, 0, 0] =
        some ([], ⟨[([97], [])], by decide, by decide⟩) := by
  have hok : deserializeEnvelopeFrom true [0, 0, 0, 0, 1, 0, 0, 0, 1, 0, 0, 0, 97, 0, 0, 0, 0] =
      .ok ⟨[], ⟨[([97], [])], by decide, by decide⟩⟩ := by decide
  exact ⟨hok, envelopeBody_agrees.2.1 true _ _ hok⟩

/-- One byte behind the row: the attachment section is not absent, only cut off, and the body is
read as one without attachments. -/
theorem parseEnvelopeBody_cut :
    ∃ word row rest : Bytes, word.length = 4 ∧ ofLe word = row.length ∧ rest ≠ [] ∧
      parseEnvelopeBody true (word ++ (row ++ rest)) = some (row, .empty) ∧
      ∃ e, deserializeEnvelope (word ++ (row ++ rest)) = .error e :=
  ⟨[0, 0, 0, 0], [], [7], rfl, by decide, by decide, by decide, _, rfl⟩

end Fletcher.FastDds
