import Fletcher.Core.Envelope
import Fletcher.Ts.Encoder

/-!
# The TypeScript envelope

The gateway client's own envelope codec. Its attachments are a `Map` from strings to bytes
and go out in the order they were inserted; the C++ side enumerates its attachments in byte
order. What arrives is put into a map on either side, so the order does not matter.

The lengths do, and one more thing. Both writers narrow what does not fit a word, and the
client reads keys through a `TextDecoder`, which takes a byte order mark off the front of
what it decodes. A key that begins with one comes out as another key.
-/

namespace Fletcher.Ts

open Lib Fletcher.Core List SortedMap

variable {e : Bytes × Bytes}

/-- A `Map` from strings to byte arrays, in the order of insertion. -/
abbrev AttachmentMap := List (JsString × Bytes)

structure TsEnvelope where
  row : Bytes
  attachments : AttachmentMap
  distinct : (attachments.map Prod.fst).Nodup

/-! ## Writing -/

/-- The array and the position in it. -/
structure Filling where
  buf : Bytes
  pos : Nat

namespace Filling

/-- `buf.set(data, pos)`, and the advance. -/
def set (f : Filling) (data : Bytes) : Except JsError Filling :=
  if f.buf.length < f.pos + data.length then .error .rangeError
  else .ok ⟨store f.buf f.pos data, f.pos + data.length⟩

/-- `view.setUint32(pos, n, true)`, which takes `n` modulo 2^32, and the advance. -/
def setUint32 (f : Filling) (n : Nat) : Except JsError Filling := f.set (leBytes 4 n)

end Filling

/-- The size computed in advance. -/
def envelopeSize (env : TsEnvelope) : Nat :=
  4 + env.row.length + 4 +
    (env.attachments.map fun e => 4 + e.1.utf8.length + 4 + e.2.length).sum

/-- The loop over the attachments. -/
def writeAttachments : AttachmentMap → Filling → Except JsError Filling
  | [], f => .ok f
  | (key, blob) :: es, f => do
    let f ← f.setUint32 key.utf8.length
    let f ← f.set key.utf8
    let f ← f.setUint32 blob.length
    let f ← f.set blob
    writeAttachments es f

def serializeEnvelope (env : TsEnvelope) : Except JsError Bytes := do
  let f : Filling := ⟨List.replicate (envelopeSize env) 0, 0⟩
  let f ← f.setUint32 env.row.length
  let f ← f.set env.row
  let f ← f.setUint32 env.attachments.length
  let f ← writeAttachments env.attachments f
  pure f.buf

/-! ## Reading -/

/-- `attachments.set(key, blob)`. -/
def setAttachment (entries : AttachmentMap) (key : JsString) (blob : Bytes) : AttachmentMap :=
  if entries.any (fun e => e.1 == key) then
    entries.map fun e => if e.1 == key then (e.1, blob) else e
  else entries ++ [(key, blob)]

/-- `attachments.get(key)`, by the bytes of the key. -/
def getAttachment (entries : AttachmentMap) (key : Bytes) : Option Bytes :=
  (entries.find? fun e => e.1.utf8 == key).map Prod.snd

/-- The texts of the reader. It knows neither owners nor refused keys. -/
def envelopeFaults : WireFaults JsError where
  word := .error "deserializeEnvelope: unexpected end of buffer"
  row := .error "deserializeEnvelope: row data truncated"
  key := .error "deserializeEnvelope: key data truncated"
  blob := .error "deserializeEnvelope: blob data truncated"
  owner := .illTyped
  zeroByte := .illTyped

/-- The loop over the attachments. -/
def readAttachments (R : Runtime) : Nat → AttachmentMap → Reader JsError AttachmentMap
  | 0, entries => pure entries
  | n + 1, entries => do
    let key ← envelopeFaults.readSized envelopeFaults.key
    let blob ← envelopeFaults.readSized envelopeFaults.blob
    readAttachments R n (setAttachment entries (R.decodeText key) blob)

/-- `deserializeEnvelope`: the row and the attachments. -/
def deserializeEnvelope (R : Runtime) (data : Bytes) : Except JsError (Bytes × AttachmentMap) :=
  if data.length < 8 then .error (.error "deserializeEnvelope: buffer too small")
  else
    Except.map Prod.fst (((do
      let row ← envelopeFaults.readSized envelopeFaults.row
      let count ← envelopeFaults.readU32
      let entries ← readAttachments R count []
      pure (row, entries)) : Reader JsError (Bytes × AttachmentMap)) data)

/-! ## What is written -/

/-- One attachment as it goes out, whole. -/
def entryBytes (e : JsString × Bytes) : Bytes :=
  leBytes 4 e.1.utf8.length ++ e.1.utf8 ++ (leBytes 4 e.2.length ++ e.2)

def envelopeBytes (env : TsEnvelope) : Bytes :=
  leBytes 4 env.row.length ++ env.row ++
    (leBytes 4 env.attachments.length ++ env.attachments.flatMap entryBytes)

/-- The array holds `done` up to the position, and `left` more bytes go in. -/
def Filling.Has (f : Filling) (done : Bytes) (left : Nat) : Prop :=
  f.pos = done.length ∧ f.buf.take f.pos = done ∧ f.buf.length = f.pos + left

theorem Filling.set_spec {f : Filling} {done data : Bytes} {left : Nat}
    (h : f.Has done (data.length + left)) :
    ∃ f', f.set data = .ok f' ∧ f'.Has (done ++ data) left := by
  obtain ⟨hpos, htake, _⟩ := h
  have hpl : f.pos + data.length ≤ f.buf.length := by omega
  refine ⟨_, if_neg (by omega), ?_, ?_, ?_⟩
  · show f.pos + data.length = _
    rw [length_append, hpos]
  · show (store f.buf f.pos data).take (f.pos + data.length) = _
    rw [take_store_end hpl, htake]
  · show (store f.buf f.pos data).length = f.pos + data.length + left
    rw [store_length hpl]
    omega

theorem entryBytes_length (e : JsString × Bytes) :
    (entryBytes e).length = 4 + e.1.utf8.length + 4 + e.2.length := by
  simp only [entryBytes, length_append, leBytes_length]
  omega

theorem flatMap_entryBytes_length (es : AttachmentMap) : (es.flatMap entryBytes).length =
      (es.map fun e => 4 + e.1.utf8.length + 4 + e.2.length).sum := by
  rw [length_flatMap]
  simp only [entryBytes_length]

theorem writeAttachments_spec : ∀ (es : AttachmentMap) {f : Filling} {done : Bytes},
    f.Has done (es.flatMap entryBytes).length →
    ∃ f', writeAttachments es f = .ok f' ∧ f'.Has (done ++ es.flatMap entryBytes) 0
  | [], f, done, h => ⟨f, rfl, by rw [flatMap_nil, append_nil]; exact h⟩
  | (key, blob) :: es, f, done, h => by
    have hsize : ((key, blob) :: es).flatMap entryBytes =
        leBytes 4 key.utf8.length ++ (key.utf8 ++ (leBytes 4 blob.length ++ (blob ++
          es.flatMap entryBytes))) := by
      simp only [flatMap_cons, entryBytes, append_assoc]
    rw [hsize] at h ⊢
    simp only [length_append] at h
    obtain ⟨_, hset₁, h₁⟩ := Filling.set_spec h
    obtain ⟨_, hset₂, h₂⟩ := Filling.set_spec h₁
    obtain ⟨_, hset₃, h₃⟩ := Filling.set_spec h₂
    obtain ⟨_, hset₄, h₄⟩ := Filling.set_spec h₃
    obtain ⟨f', hrest, h'⟩ := writeAttachments_spec es h₄
    refine ⟨f', ?_, ?_⟩
    · rw [writeAttachments, Filling.setUint32, hset₁, ok_bind, hset₂, ok_bind, Filling.setUint32,
        hset₃, ok_bind, hset₄, ok_bind, hrest]
    · simpa only [append_assoc] using h'

/-- The size computed in advance is exact, so nothing is thrown and nothing left over. -/
theorem serializeEnvelope_eq (env : TsEnvelope) :
    serializeEnvelope env = .ok (envelopeBytes env) := by
  have htotal : envelopeSize env = (leBytes 4 env.row.length).length + (env.row.length +
      ((leBytes 4 env.attachments.length).length +
        (env.attachments.flatMap entryBytes).length)) := by
    rw [flatMap_entryBytes_length, leBytes_length, leBytes_length, envelopeSize]
    omega
  have h : (⟨replicate (envelopeSize env) 0, 0⟩ : Filling).Has []
      ((leBytes 4 env.row.length).length +
      (env.row.length + ((leBytes 4 env.attachments.length).length +
        (env.attachments.flatMap entryBytes).length))) :=
    ⟨rfl, take_zero, by rw [length_replicate, htotal]; exact (Nat.zero_add _).symm⟩
  obtain ⟨_, hset₁, h₁⟩ := Filling.set_spec h
  obtain ⟨_, hset₂, h₂⟩ := Filling.set_spec h₁
  obtain ⟨_, hset₃, h₃⟩ := Filling.set_spec h₂
  obtain ⟨f', hrest, _, htake, _⟩ := writeAttachments_spec env.attachments h₃
  rw [serializeEnvelope, Filling.setUint32, hset₁, ok_bind, hset₂, ok_bind, Filling.setUint32,
    hset₃, ok_bind, hrest, ok_bind]
  have hfull : f'.buf = f'.buf.take f'.pos := by
    rw [take_of_length_le (by omega)]
  rw [hfull, htake]
  simp only [nil_append, append_assoc, envelopeBytes]
  rfl

/-! ## Maps -/

/-- The two sides hold the same map. -/
def SameMap (m : AttachmentMap) (a : Attachments) : Prop :=
  ∀ key, getAttachment m key = a.find key

theorem JsString.eq_of_utf8 {s s' : JsString} (h : s.utf8 = s'.utf8) : s = s' := by
  cases s
  cases s'
  cases h
  rfl

theorem getAttachment_cons (e : JsString × Bytes) (m : AttachmentMap) (key : Bytes) :
    getAttachment (e :: m) key = if e.1.utf8 = key then some e.2 else getAttachment m key := by
  rw [getAttachment, find?_cons]
  by_cases hkey : e.1.utf8 = key
  · rw [if_pos hkey, beq_iff_eq.mpr hkey]
    rfl
  · rw [if_neg hkey, beq_eq_false_iff_ne.mpr hkey]
    rfl

/-- A map as the entries a C++ reader takes in. -/
def wireEntries (m : AttachmentMap) : List (Bytes × Bytes) := m.map fun e => (e.1.utf8, e.2)

/-- Of distinct keys the last is the only one. -/
theorem last_wireEntries (key : Bytes) : ∀ {m : AttachmentMap}, (m.map Prod.fst).Nodup →
    last key (wireEntries m) = getAttachment m key
  | [], _ => rfl
  | e :: m, h => by
    rw [map_cons, nodup_cons] at h
    have ih := last_wireEntries key h.2
    have hcons := last_cons key (e.1.utf8, e.2) (wireEntries m)
    rw [getAttachment_cons]
    refine hcons.trans ?_
    by_cases hkey : e.1.utf8 = key
    · have hnone : last key (wireEntries m) = none := by
        refine last_none_of_ne fun x hx hsame => h.1 ?_
        obtain ⟨e', he', rfl⟩ := mem_map.mp hx
        have hstr : e.1 = e'.1 := JsString.eq_of_utf8 (hkey.trans hsame.symm)
        rw [hstr]
        exact mem_map_of_mem he'
      rw [hnone, if_pos hkey, if_pos hkey]
      rfl
    · rw [if_neg hkey, if_neg hkey, Option.or_none, ih]

theorem getAttachment_of_mem : ∀ {m : AttachmentMap} {e : JsString × Bytes},
    (m.map Prod.fst).Nodup → e ∈ m → getAttachment m e.1.utf8 = some e.2
  | e' :: m, e, hnd, he => by
    rw [map_cons, nodup_cons] at hnd
    rw [getAttachment_cons]
    rcases mem_cons.mp he with rfl | he
    · exact if_pos rfl
    · have hne : e'.1.utf8 ≠ e.1.utf8 := fun hkey =>
        hnd.1 (JsString.eq_of_utf8 hkey ▸ mem_map_of_mem he)
      rw [if_neg hne]
      exact getAttachment_of_mem hnd.2 he

theorem getAttachment_none : ∀ {m : AttachmentMap} {k : JsString},
    m.any (fun e => e.1 == k) = false → getAttachment m k.utf8 = none
  | [], _, _ => rfl
  | e :: m, k, h => by
    rw [any_cons, Bool.or_eq_false_iff] at h
    have hne : e.1.utf8 ≠ k.utf8 := fun hkey =>
      beq_eq_false_iff_ne.mp h.1 (JsString.eq_of_utf8 hkey)
    rw [getAttachment_cons, if_neg hne]
    exact getAttachment_none h.2

theorem getAttachment_some : ∀ {m : AttachmentMap} {k : JsString},
    m.any (fun e => e.1 == k) = true → ∃ v, getAttachment m k.utf8 = some v
  | e :: m, k, h => by
    rw [getAttachment_cons]
    by_cases hkey : e.1.utf8 = k.utf8
    · exact ⟨e.2, if_pos hkey⟩
    · have hne : (e.1 == k) = false := beq_eq_false_iff_ne.mpr fun hstr => hkey (hstr ▸ rfl)
      rw [any_cons, hne, Bool.false_or] at h
      rw [if_neg hkey]
      exact getAttachment_some h

theorem getAttachment_concat (m : AttachmentMap) (e : JsString × Bytes) (key : Bytes) :
    getAttachment (m ++ [e]) key =
      (getAttachment m key).or (if e.1.utf8 = key then some e.2 else none) := by
  induction m with
  | nil =>
    rw [nil_append, getAttachment_cons]
    rfl
  | cons e' m ih =>
    rw [cons_append, getAttachment_cons, getAttachment_cons, ih]
    by_cases hkey : e'.1.utf8 = key
    · rw [if_pos hkey, if_pos hkey]
      rfl
    · rw [if_neg hkey, if_neg hkey]

theorem getAttachment_replace (k : JsString) (blob key : Bytes) : ∀ (m : AttachmentMap),
    getAttachment (m.map fun e => if e.1 == k then (e.1, blob) else e) key =
      if k.utf8 = key then (getAttachment m key).map fun _ => blob else getAttachment m key
  | [] => by
    rw [map_nil]
    exact (ite_self _).symm
  | e :: m => by
    rw [map_cons, getAttachment_cons, getAttachment_cons, getAttachment_replace k blob key m]
    by_cases hstr : e.1 = k
    · rw [if_pos (beq_iff_eq.mpr hstr), hstr]
      by_cases hkey : k.utf8 = key
      · rw [if_pos hkey, if_pos hkey, if_pos hkey]
        rfl
      · rw [if_neg hkey, if_neg hkey, if_neg hkey, if_neg hkey]
    · have hhead : (if (e.1 == k) = true then (e.1, blob) else e) = e :=
        if_neg (fun h => hstr (beq_iff_eq.mp h))
      rw [hhead]
      by_cases hkey : k.utf8 = key
      · have hne : e.1.utf8 ≠ key := fun h =>
          hstr (JsString.eq_of_utf8 (h.trans hkey.symm))
        rw [if_pos hkey, if_neg hne, if_neg hne, if_pos hkey]
      · rw [if_neg hkey, if_neg hkey]

theorem getAttachment_setAttachment (m : AttachmentMap) (k : JsString) (blob key : Bytes) :
    getAttachment (setAttachment m k blob) key =
      if k.utf8 = key then some blob else getAttachment m key := by
  rw [setAttachment]
  cases hany : m.any (fun e => e.1 == k) with
  | true =>
    rw [if_pos rfl, getAttachment_replace]
    by_cases hkey : k.utf8 = key
    · rw [if_pos hkey, if_pos hkey]
      obtain ⟨v, hv⟩ := getAttachment_some hany
      rw [← hkey, hv]
      rfl
    · rw [if_neg hkey, if_neg hkey]
  | false =>
    rw [if_neg Bool.false_ne_true, getAttachment_concat]
    by_cases hkey : k.utf8 = key
    · rw [if_pos hkey, if_pos hkey, ← hkey, getAttachment_none hany]
      rfl
    · rw [if_neg hkey, if_neg hkey, Option.or_none]

/-- The map a reader fills, entry by entry: each key has the blob it was last given. -/
theorem getAttachment_foldl (R : Runtime) (key : Bytes) : ∀ (es : List (Bytes × Bytes))
    (m : AttachmentMap),
    getAttachment (es.foldl (fun m e => setAttachment m (R.decodeText e.1) e.2) m) key =
      (last key (es.map fun e => ((R.decodeText e.1).utf8, e.2))).or (getAttachment m key)
  | [], m => rfl
  | e :: es, m => by
    rw [foldl_cons, getAttachment_foldl R key es, getAttachment_setAttachment, map_cons,
      last_cons, Option.or_assoc]
    by_cases hkey : (R.decodeText e.1).utf8 = key
    · rw [if_pos hkey, if_pos hkey]
      rfl
    · rw [if_neg hkey, if_neg hkey]
      rfl

/-! ## One map, two encoders -/

section Interop

variable {env : TsEnvelope} {a : Attachments} (hsame : SameMap env.attachments a)
include hsame

theorem mem_entries {e : JsString × Bytes} (he : e ∈ env.attachments) :
    (e.1.utf8, e.2) ∈ a.entries := by
  have hget := getAttachment_of_mem env.distinct he
  rw [hsame, Attachments.find, ← last_of_ascending a.ascending] at hget
  exact mem_of_last hget

theorem count_le : env.attachments.length ≤ a.entries.length := by
  have hnd : (env.attachments.map fun e => e.1.utf8).Nodup := by
    have hmap : (env.attachments.map fun e => e.1.utf8) =
        (env.attachments.map Prod.fst).map JsString.utf8 := by
      rw [List.map_map]
      rfl
    rw [hmap]
    exact env.distinct.map fun _ _ => JsString.eq_of_utf8
  have hsub : (env.attachments.map fun e => e.1.utf8) ⊆ a.entries.map Prod.fst := by
    intro _ hkey
    obtain ⟨e, he, rfl⟩ := mem_map.mp hkey
    exact mem_map_of_mem (f := Prod.fst) (mem_entries hsame he)
  have hle := hnd.length_le_of_subset hsub
  rw [length_map, length_map] at hle
  exact hle

/-- Every key of the C++ side is a string of the client's. -/
theorem valid_key (he : e ∈ a.entries) : Utf8.valid e.1 = true := by
  have hfind : a.find e.1 = some e.2 := find_of_mem a.ascending he
  rw [← hsame, ← last_wireEntries e.1 env.distinct] at hfind
  obtain ⟨e', -, hkey⟩ := mem_map.mp (mem_of_last hfind)
  have hutf8 : e'.1.utf8 = e.1 := congrArg Prod.fst hkey
  rw [← hutf8]
  exact e'.1.valid

theorem wireEntries_fit (hfits : Envelope.Fits ⟨env.row, a⟩)
    (he : e ∈ wireEntries env.attachments) :
    (0 : UInt8) ∉ e.1 ∧ e.1.length < 2 ^ 32 ∧ e.2.length < 2 ^ 32 := by
  obtain ⟨_, he', rfl⟩ := mem_map.mp he
  have hmem := mem_entries hsame he'
  exact ⟨a.noZero _ hmem, hfits.entry _ hmem⟩

/-- The client's bytes are the arrivals of its map. -/
theorem envelopeBytes_eq (hfits : Envelope.Fits ⟨env.row, a⟩) :
    envelopeBytes env = leBytes 4 env.row.length ++ env.row ++
      (leBytes 4 (wireEntries env.attachments).length ++
        (wireEntries env.attachments).flatMap attachmentBytes) := by
  have hent : ∀ e ∈ env.attachments, entryBytes e = attachmentBytes (e.1.utf8, e.2) := by
    intro e he
    have hsht := (hfits.entry _ (mem_entries hsame he)).2
    rw [entryBytes, attachmentBytes, Nat.mod_eq_of_lt hsht, take_length]
  rw [envelopeBytes, wireEntries, length_map, flatMap_map]
  congr 2
  exact flatMap_congr hent

/-- The client's envelope, read in C++. -/
theorem deserializeEnvelope_envelopeBytes (hfits : Envelope.Fits ⟨env.row, a⟩) :
    Core.deserializeEnvelope (envelopeBytes env) = .ok ⟨env.row, a⟩ := by
  have hcnt : (wireEntries env.attachments).length < 2 ^ 32 := by
    rw [wireEntries, length_map]
    exact Nat.lt_of_le_of_lt (count_le hsame) hfits.count
  obtain ⟨a', ha', hreads⟩ := Envelope.reads_arrivals hfits.row hcnt
    (fun e he => (wireEntries_fit hsame hfits he).1)
    (fun e he => (wireEntries_fit hsame hfits he).2)
  have hmap : a' = a := by
    refine Attachments.ext_find fun key => ?_
    rw [Attachments.find, ha', find_build, last_wireEntries key env.distinct, hsame]
  rw [envelopeBytes_eq hsame hfits, ← hmap]
  refine deserializeEnvelope_of_reads hreads ?_
  simp only [length_append, leBytes_length]
  omega

end Interop

/-! ## The other way -/

section Reading

open Reader

variable (R : Runtime)

theorem reads_tsAttachments : ∀ (es : List (Bytes × Bytes)) (m : AttachmentMap),
    (∀ e ∈ es, e.1.length < 2 ^ 32 ∧ e.2.length < 2 ^ 32) →
    Reads (readAttachments R es.length m) (es.flatMap attachmentBytes)
      (es.foldl (fun m e => setAttachment m (R.decodeText e.1) e.2) m)
  | [], m, _ => reads_pure m
  | e :: es, m, hfits => by
    obtain ⟨hkey, hblob⟩ := hfits e mem_cons_self
    have hrest := reads_tsAttachments es (setAttachment m (R.decodeText e.1) e.2)
      fun x hx => hfits x (mem_cons_of_mem e hx)
    rw [flatMap_cons, attachmentBytes, Nat.mod_eq_of_lt hblob, take_length,
      append_assoc]
    exact (envelopeFaults.reads_readSized hkey).bind
      ((envelopeFaults.reads_readSized hblob).bind hrest)

/-- The map the client makes of the entries of the C++ side. -/
def received (a : Attachments) : AttachmentMap :=
  a.entries.foldl (fun m e => setAttachment m (R.decodeText e.1) e.2) []

/-- The C++ side's envelope, read by the client. -/
theorem deserializeEnvelope_serializeEnvelope {env : Envelope} (h : env.Fits) :
    deserializeEnvelope R (Core.serializeEnvelope env) =
      .ok (env.row, received R env.attachments) := by
  have hreads : Reads ((do
      let row ← envelopeFaults.readSized envelopeFaults.row
      let count ← envelopeFaults.readU32
      let entries ← readAttachments R count []
      pure (row, entries)) : Reader JsError (Bytes × AttachmentMap)) (Core.serializeEnvelope env)
      (env.row, received R env.attachments) :=
    (envelopeFaults.reads_readSized h.row).bind
      ((envelopeFaults.reads_readU32 h.count).bind
        (reads_tsAttachments R env.attachments.entries [] h.entry).bind_pure)
  have hread := hreads []
  rw [append_nil] at hread
  rw [deserializeEnvelope, if_neg (Nat.not_lt.mpr env.eight_le_length), hread]
  rfl

theorem getAttachment_received (a : Attachments) (key : Bytes) : getAttachment (received R a) key =
      last key (a.entries.map fun e => ((R.decodeText e.1).utf8, e.2)) := by
  rw [received, getAttachment_foldl]
  exact Option.or_none ..

/-- Keys without a byte order mark arrive as they are. -/
theorem sameMap_received {a : Attachments} (hval : ∀ e ∈ a.entries, Utf8.valid e.1 = true)
    (hbom : ∀ e ∈ a.entries, ¬ bom <+: e.1) : SameMap (received R a) a := by
  intro _
  have hsame : (a.entries.map fun e => ((R.decodeText e.1).utf8, e.2)) = a.entries := by
    refine (map_congr_left fun e he => ?_).trans (List.map_id _)
    rw [R.decodeText_valid e.1 (hval e he), if_neg (hbom e he)]
    rfl
  rw [getAttachment_received, hsame, last_of_ascending a.ascending]
  rfl

/-- A key with a byte order mark can only have arrived for one with another mark in front. -/
theorem longer_bom {a : Attachments} (hval : ∀ e ∈ a.entries, Utf8.valid e.1 = true)
    (hsame : SameMap (received R a) a) (he : e ∈ a.entries)
    (hbom : bom <+: e.1) : ∃ e' ∈ a.entries, bom <+: e'.1 ∧ e'.1.length = e.1.length + 3 := by
  have hfind : a.find e.1 = some e.2 := find_of_mem a.ascending he
  rw [← hsame, getAttachment_received] at hfind
  obtain ⟨e', he', hkey⟩ := mem_map.mp (mem_of_last hfind)
  have hutf8 : (R.decodeText e'.1).utf8 = e.1 := congrArg Prod.fst hkey
  rw [R.decodeText_valid e'.1 (hval e' he')] at hutf8
  by_cases hmark : bom <+: e'.1
  · rw [if_pos hmark] at hutf8
    refine ⟨e', he', hmark, ?_⟩
    have hlong : bom.length ≤ e'.1.length := hmark.length_le
    have hthree : bom.length = 3 := rfl
    rw [← hutf8, length_drop]
    omega
  · rw [if_neg hmark] at hutf8
    exact absurd (hutf8 ▸ hbom) hmark

/-- So a map that arrives as it is has no such key: there would be keys of any length. -/
theorem no_bom_of_sameMap {row : Bytes} {a : Attachments} (hfits : Envelope.Fits ⟨row, a⟩)
    (hval : ∀ e ∈ a.entries, Utf8.valid e.1 = true) (hsame : SameMap (received R a) a) :
    ∀ e ∈ a.entries, ¬ bom <+: e.1 := by
  intro e he hbom
  have hall : ∀ n, ∃ e' ∈ a.entries, bom <+: e'.1 ∧ n ≤ e'.1.length := by
    intro n
    induction n with
    | zero => exact ⟨e, he, hbom, Nat.zero_le _⟩
    | succ n ih =>
      obtain ⟨e', he', hbom', hle⟩ := ih
      obtain ⟨e'', he'', hbom'', _⟩ := longer_bom R hval hsame he' hbom'
      exact ⟨e'', he'', hbom'', by omega⟩
  obtain ⟨e', he', -, hle⟩ := hall (2 ^ 32)
  have hsht := (hfits.entry e' he').1
  omega

end Reading

/-! ## Both ways -/

/-- **An envelope crosses both ways exactly when its lengths fit their words and no key begins
with a byte order mark**, whatever the order in which the client inserted its attachments. -/
theorem envelope_interop_iff (R : Runtime) (env : TsEnvelope) (a : Attachments)
    (hsame : SameMap env.attachments a) :
    ((∃ bytes, serializeEnvelope env = .ok bytes ∧
        Core.deserializeEnvelope bytes = .ok ⟨env.row, a⟩) ∧
      ∃ m, deserializeEnvelope R (Core.serializeEnvelope ⟨env.row, a⟩) = .ok (env.row, m) ∧
        SameMap m a) ↔
      Envelope.Fits ⟨env.row, a⟩ ∧ ∀ e ∈ a.entries, ¬ bom <+: e.1 := by
  constructor
  · intro h
    obtain ⟨⟨bytes, _, hcpp⟩, m, hts, hm⟩ := h
    have hfits : Envelope.Fits ⟨env.row, a⟩ := fits_of_deserializeEnvelope hcpp
    rw [deserializeEnvelope_serializeEnvelope R hfits] at hts
    cases hts
    exact ⟨hfits, no_bom_of_sameMap R hfits (fun e he => valid_key hsame he) hm⟩
  · intro h
    obtain ⟨hfits, hbom⟩ := h
    refine ⟨⟨envelopeBytes env, serializeEnvelope_eq env, ?_⟩,
      received R a, deserializeEnvelope_serializeEnvelope R hfits, ?_⟩
    · exact deserializeEnvelope_envelopeBytes hsame hfits
    · exact sameMap_received R (fun e he => valid_key hsame he) hbom

/-- Two attachments, inserted against the order of their keys. -/
def pairEnvelope : TsEnvelope :=
  ⟨[7], [(⟨[98], by decide⟩, [2]), (⟨[97], by decide⟩, [1])], by decide⟩

def pairAttachments : Attachments := ⟨[([97], [1]), ([98], [2])], by decide, by decide⟩

theorem sameMap_pair : SameMap pairEnvelope.attachments pairAttachments := by
  intro key
  by_cases hb : [98] = key
  · rw [← hb]
    decide
  · by_cases ha : [97] = key
    · rw [← ha]
      decide
    · simp [pairEnvelope, pairAttachments, getAttachment, Attachments.find, find, ha, hb]

theorem envelope_interop_pair :
    ∃ m, deserializeEnvelope .plain (Core.serializeEnvelope ⟨[7], pairAttachments⟩) = .ok ([7], m) ∧
      SameMap m pairAttachments :=
  ((envelope_interop_iff .plain pairEnvelope pairAttachments sameMap_pair).mpr
    ⟨⟨by decide, by decide, by decide⟩, by decide⟩).2

/-- A key that begins with U+FEFF arrives at the client without it. -/
theorem marked_key_changes : deserializeEnvelope .plain (Core.serializeEnvelope
        ⟨[], ⟨[(bom ++ [97], [1])], by decide, by decide⟩⟩) = .ok ([], [(⟨[97], by decide⟩, [1])]) ∧
      Utf8.valid (bom ++ [97]) = true ∧ (0 : UInt8) ∉ bom ++ [97] ∧
      getAttachment [(⟨[97], by decide⟩, [1])] (bom ++ [97]) = none := by
  decide

end Fletcher.Ts
