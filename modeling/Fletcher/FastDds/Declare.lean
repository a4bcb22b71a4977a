import Fletcher.FastDds.SampleType
import Fletcher.Lib.Act
import Fletcher.PubSub.Seam

/-!
# Declaring a topic on Fast DDS

`CreateTopicWithOptions` of the Fast DDS provider. It creates the data topic and its writer
on the first call and announces the first schema it is given, whenever that is: what it
compares later declarations with are the bytes of that announcement, and a declaration
without a schema is compared with nothing.

Fast DDS is a parameter: whether each creation, registration or deletion succeeds, which payload
a write hands to `serialize` and whether the sample then gets out, by the number of the
operation. The schema channel has a bound of its own, so a schema can be too long to be announced.
-/

namespace Fletcher.FastDds.Declare

open Lib Utf8 Fletcher.Core PubSub List Sample

variable {s : Impl}

/-- What a write returned. -/
structure Written where
  ok : Bool
  /-- `transport.serialize_error`. -/
  serializeError : Bytes
  deriving DecidableEq, Repr

/-- Fast DDS, by the number of the operation, and the profiles of its document. -/
structure Dds where
  succeeds : Nat → Bool
  /-- The payload a write hands to `serialize`. -/
  payload : Nat → Sample.SerializedPayload
  payload_inside : ∀ n, (payload n).maxSize.toNat ≤ (payload n).memory.length
  xcdr2 : Bool
  /-- A sample that was serialized gets out. -/
  sent : Nat → Bool
  hasProfile : String → Bool

/-- `kSchemaPayloadBytes`. -/
def kSchemaPayloadBytes : Nat := 32 * 1024

def kSchemaPayloadBoundKey : Bytes := ascii "max_payload_bytes"

/-- The encoder of an announcement's row. -/
def ipcEncoder (ipc : Bytes) : BufferEncoder where
  run b := perform b (b.append ipc)
  byCalls b := by
    refine .single ⟨.append ipc, ?_⟩
    rw [FixedWriteBuffer.call]
    cases b.append ipc <;> rfl

/-- The attachment with the topic's bound. -/
def announcedBound (bound : Nat) : Attachments where
  entries := [(kSchemaPayloadBoundKey, leBytes 4 bound)]
  ascending := pairwise_singleton _ _
  noZero e he := by
    rw [mem_singleton.mp he]
    show (0 : UInt8) ∉ kSchemaPayloadBoundKey
    decide

/-- The `write` of an announcement. -/
def Dds.write (dds : Dds) (n : Nat) (ipc : Bytes) (bound : Nat) : Written :=
  let sample := serialize (UInt32.ofNat kSchemaPayloadBytes) (ipcEncoder ipc)
    (announcedBound bound) dds.xcdr2 (dds.payload n)
  ⟨sample.ok && dds.sent n, ascii (sample.recorded.getD "")⟩

/-- What frames a row on the schema channel. -/
def kAnnouncementFraming : Nat := 37

/-- Nothing fails from the operation on, and a write gets a payload of the channel's size. -/
structure Dds.WorksFrom (dds : Dds) (start : Nat) : Prop where
  succeeds : ∀ n, start ≤ n → dds.succeeds n = true
  sent : ∀ n, start ≤ n → dds.sent n = true
  roomy : ∀ n, start ≤ n →
    kFraming + kSchemaPayloadBytes ≤ (dds.payload n).maxSize.toNat

/-- `TopicState::Publication`, with the entities as flags. -/
structure Publication where
  dataWriter : Bool := false
  schemaWriter : Bool := false
  schemaIpc : Bytes := []
  payloadBytes : Nat := 0
  profile : String := ""
  deriving DecidableEq, Repr

/-- `TopicState`, as far as a declaration looks at it. -/
structure TopicState where
  /-- The type name of the data topic. -/
  dataTopic : Option Bytes := none
  schemaTopic : Bool := false
  published : Publication := {}
  /-- `subscribed.data_listener` is set. -/
  subscribed : Bool := false
  deriving DecidableEq, Repr

/-- One sample on a `__schema` channel. -/
structure Announcement where
  topic : Bytes
  ipc : Bytes
  bound : Nat
  deriving DecidableEq, Repr

structure Participant where
  operations : Nat := 0
  /-- The registered types. -/
  types : Bytes → Bool := fun _ => false
  announced : List Announcement := []

structure Impl where
  topics : Bytes → Option TopicState := fun _ => none
  participant : Participant := {}

/-- `FletcherTypeName`. -/
def fletcherTypeName (bound : Nat) : Bytes := ascii "fletcher_" ++ decimal bound

abbrev TopicAct (α : Type) := Act (TopicState × Participant) PubSubError α

variable (L : SchemaLib) (dds : Dds) (maxPayloadBytes : Nat)

namespace TopicAct

def setTopic (f : TopicState → TopicState) : TopicAct Unit := Act.modify fun x => (f x.1, x.2)

def setParticipant (f : Participant → Participant) : TopicAct Unit :=
  Act.modify fun x => (x.1, f x.2)

/-- One operation of Fast DDS. -/
def operate : TopicAct Bool := do
  let x ← Act.get
  setParticipant fun p => { p with operations := p.operations + 1 }
  pure (dds.succeeds x.2.operations)

/-- An operation whose failure is a transport failure. -/
def operateOr (what : Text) : TopicAct Unit := do
  let ok ← operate dds
  if ok then pure () else Act.throw ⟨.transportFailure, what⟩

/-- `DataTypeNameFor`. -/
def registerType (bound : Nat) : TopicAct Unit := do
  let x ← Act.get
  if x.2.types (fletcherTypeName bound) then pure ()
  else do
    operateOr dds (ascii "FastDDS: failed to register the data type for payload bound " ++
      decimal bound)
    setParticipant fun p =>
      { p with types := Function.update p.types (fletcherTypeName bound) true }

/-- A data topic of another type: refused while a subscription holds it, replaced
otherwise. -/
def dropOtherTopic (name : Bytes) (bound : Nat) : TopicAct Unit := do
  let x ← Act.get
  match x.1.dataTopic with
  | none => pure ()
  | some typeName =>
    if typeName = fletcherTypeName bound then pure ()
    else if x.1.subscribed then
      Act.throw ⟨.invalidArgument, ascii "FastDDS: '" ++ name ++ ascii "' already carries type " ++
        typeName ++ ascii (" on this instance, from a subscription that followed a " ++
          "publisher's announced bound; this instance publishes at ") ++ decimal bound⟩
    else do
      operateOr dds (ascii "FastDDS: failed to replace the data topic of '" ++ name ++
        ascii "' for payload bound " ++ decimal bound)
      setTopic fun ts => { ts with dataTopic := none }

def ensureDataTopic (name : Bytes) (bound : Nat) : TopicAct Unit := do
  let x ← Act.get
  match x.1.dataTopic with
  | some _ => pure ()
  | none => do
    registerType dds bound
    operateOr dds (ascii "FastDDS: failed to create topic: " ++ name)
    setTopic fun ts => { ts with dataTopic := some (fletcherTypeName bound) }

/-- `ResolveDataWriterQos`: only a profile that was named can be missing. -/
def resolveDataWriterQos (profile : String) : Except PubSubError Unit :=
  if profile = "" ∨ dds.hasProfile profile = true then .ok ()
  else .error ⟨.invalidArgument,
    ascii ("FastDDS: the document defines no <data_writer> profile named '" ++ profile ++ "'")⟩

/-- The data writer of a topic this instance does not publish yet. -/
def createDataWriter (name : Bytes) (options : TopicOptions) (bound : Nat) : TopicAct Unit := do
  dropOtherTopic dds name bound
  ensureDataTopic dds name bound
  Act.lift (resolveDataWriterQos dds options.profile)
  operateOr dds (ascii "FastDDS: failed to create DataWriter for: " ++ name)
  setTopic fun ts =>
    { ts with
      published := { ts.published with
        dataWriter := true
        payloadBytes := bound
        profile := options.profile } }

/-- The data writer, or the check of the options a topic was declared with. -/
def ensureDataWriter (name : Bytes) (options : TopicOptions) (bound : Nat) : TopicAct Unit := do
  let x ← Act.get
  if x.1.published.dataWriter then
    if optionsConflict options ⟨x.1.published.profile, x.1.published.payloadBytes⟩ then
      Act.throw ⟨.invalidArgument, ascii "FastDDS: '" ++ name ++
        ascii "' is already declared at payload bound " ++ decimal x.1.published.payloadBytes ++
        ascii (" with profile '" ++ x.1.published.profile ++ "'")⟩
    else pure ()
  else createDataWriter dds name options bound

def ensureSchemaTopic (name : Bytes) : TopicAct Unit := do
  let x ← Act.get
  if x.1.schemaTopic then pure ()
  else do
    operateOr dds (ascii "FastDDS: failed to create schema topic: " ++ name ++ ascii "/__schema")
    setTopic fun ts => { ts with schemaTopic := true }

def setSchemaWriter (present : Bool) : TopicAct Unit :=
  setTopic fun ts => { ts with published := { ts.published with schemaWriter := present } }

/-- The one write of the schema channel. A failure takes the writer away again. -/
def writeAnnouncement (name ipc : Bytes) : TopicAct Unit := do
  let x ← Act.get
  setParticipant fun p => { p with operations := p.operations + 1 }
  let result := dds.write x.2.operations ipc x.1.published.payloadBytes
  if result.ok = true ∧ result.serializeError = [] then
    setParticipant fun p =>
      { p with announced := p.announced ++ [⟨name, ipc, x.1.published.payloadBytes⟩] }
    setTopic fun ts => { ts with published := { ts.published with schemaIpc := ipc } }
  else do
    setSchemaWriter false
    Act.throw ⟨.transportFailure, ascii "FastDDS: failed to announce the schema for: " ++ name ++
      (if result.serializeError = [] then [] else ascii " (" ++ result.serializeError ++
        ascii ")") ++
      ascii " (schema is " ++ decimal ipc.length ++
      ascii " bytes; the schema channel's bound is " ++ decimal kSchemaPayloadBytes ++
      ascii ", of which 37 frame the row and its bound attachment)"⟩

/-- The first announcement, or the comparison with it. -/
def announceIpc (name ipc : Bytes) : TopicAct Unit := do
  let x ← Act.get
  if x.1.published.schemaWriter then
    if ipc = x.1.published.schemaIpc then pure ()
    else Act.throw ⟨.schemaConflict,
      ascii "FastDDS: topic already declared with a conflicting schema: " ++ name⟩
  else do
    ensureSchemaTopic dds name
    operateOr dds (ascii "FastDDS: failed to create schema DataWriter for: " ++ name ++
      ascii "/__schema")
    setSchemaWriter true
    writeAnnouncement dds name ipc

/-- The schema of a declaration; without one there is nothing to do. -/
def announce (name : Bytes) : Option L.Schema → TopicAct Unit
  | none => pure ()
  | some schema => do
    let ipc ← Act.lift ((L.serializeIpc schema).mapError fun text => ⟨.internal, text⟩)
    announceIpc dds name ipc

/-- `CreateTopicWithOptions`, under the lock. -/
def declareTopic (name : Bytes) (schema : Option L.Schema) (options : TopicOptions)
    (bound : Nat) : TopicAct Unit := do
  ensureDataWriter dds name options bound
  announce L dds name schema

end TopicAct

namespace Impl

/-- `topics[name]`. -/
def topic (s : Impl) (name : Bytes) : TopicState := (s.topics name).getD {}

/-- A computation on `topics[name]`. -/
def onTopicState {α : Type} (name : Bytes) (m : TopicAct α) : Act Impl PubSubError α := fun s =>
  match m (s.topic name, s.participant) with
  | (r, ts, p) => (r, { topics := Function.update s.topics name (some ts), participant := p })

def requireBound (bound : Nat) : Except PubSubError Unit :=
  if isPayloadBound bound then .ok ()
  else .error ⟨.invalidArgument, ascii "FastDDS: max_payload_bytes " ++ decimal bound ++
    ascii " cannot bound a payload; it must be a multiple of 4 between " ++
    decimal kMinPayloadBytes ++ ascii " and " ++ decimal kMaxPayloadBytes⟩

/-- This topic's own bound, or the provider's. -/
def boundOf (options : TopicOptions) : Nat :=
  if options.maxPayloadBytes ≠ 0 then options.maxPayloadBytes else maxPayloadBytes

/-- `CreateTopicWithOptions`. -/
def createTopicWithOptions (inside : Bool) (segments : List Bytes) (schema : Option L.Schema)
    (options : TopicOptions) : Act Impl PubSubError Unit := do
  Act.lift (refuseIfInside inside "CreateTopicWithOptions")
  let name ← Act.lift (topicName segments)
  Act.lift (requireBound (boundOf maxPayloadBytes options))
  onTopicState name (TopicAct.declareTopic L dds name schema options
    (boundOf maxPayloadBytes options))

end Impl

/-! ## What a write comes to -/

theorem announcement_length (ipc : Bytes) (bound : Nat) :
    (serializeEnvelope ⟨ipc, announcedBound bound⟩).length =
      ipc.length + kAnnouncementFraming := by
  have hkey : kSchemaPayloadBoundKey.length = 17 := by decide
  simp only [serializeEnvelope, attachmentsBytes, announcedBound, flatMap_cons, flatMap_nil,
    attachmentBytes, length_append, leBytes_length, length_take, length_nil, hkey,
    kAnnouncementFraming]
  omega

/-- The channel's window of a payload. -/
abbrev channelWindow (p : Sample.SerializedPayload) : FixedWriteBuffer :=
  bodyWindow (UInt32.ofNat kSchemaPayloadBytes) p

/-- Behind the placeholder the encoder lays the bytes down, if there is room for them. -/
theorem ipcEncoder_run (ipc : Bytes) {b : FixedWriteBuffer} (hb : b.Inv) (hpos : b.pos = 0)
    (hroom : 4 ≤ b.capacity) :
    (4 + ipc.length ≤ b.capacity → ((ipcEncoder ipc).run (lentWindow b)).1 = .ok () ∧
      encodedRow (ipcEncoder ipc) b = ipc) ∧
    (b.capacity < 4 + ipc.length → ((ipcEncoder ipc).run (lentWindow b)).1 ≠ .ok ()) := by
  have hplace : b.appendU32 0 = .ok (lentWindow b) :=
    if_neg (by rw [leBytes_length]; omega)
  obtain ⟨hlent, hkeeps⟩ := (FixedWriteBuffer.stored_append hb hplace).keeps hb
  have hcapacity : (lentWindow b).capacity = b.capacity := hkeeps.capacity_eq
  have hlentPos : (lentWindow b).pos = 4 := by
    show b.pos + (leBytes 4 0).length = 4
    rw [leBytes_length]
    omega
  constructor
  · intro hfits
    obtain ⟨hok, hwritten⟩ := (lays_append ipc).fits _ hlent (by omega)
    have hfour : (lentWindow b).written.length = 4 := by
      rw [FixedWriteBuffer.written_length hlent, hlentPos]
    refine ⟨hok, ?_⟩
    show (perform _ (FixedWriteBuffer.append _ ipc)).2.written.drop 4 = ipc
    rw [hwritten, ← hfour, drop_left]
  · intro hfull hok
    have hover := (lays_append ipc).full _ hlent (by omega)
    exact absurd (hover.symm.trans hok) nofun

theorem delivers_iff (ipc : Bytes) (bound : Nat) {p : Sample.SerializedPayload}
    (hp : p.maxSize.toNat ≤ p.memory.length) :
    Sample.Delivers (UInt32.ofNat kSchemaPayloadBytes) (ipcEncoder ipc) (announcedBound bound) p ↔
      ipc.length + kAnnouncementFraming ≤ (channelWindow p).capacity := by
  have hchannel : (UInt32.ofNat kSchemaPayloadBytes).toNat = 32768 := rfl
  by_cases hroom : kHeader + kSampleLengthPrefix + 4 ≤ p.maxSize.toNat
  · have hwindow : (channelWindow p).Inv := inv_bodyWindow hp hroom
    have hfour : 4 ≤ (channelWindow p).capacity := by
      show 4 ≤ min (UInt32.ofNat kSchemaPayloadBytes).toNat (p.maxSize.toNat - kFraming)
      rw [hchannel, kFraming]
      omega
    obtain ⟨hfits, hfull⟩ := ipcEncoder_run ipc hwindow rfl hfour
    have hiff : Sample.Delivers (UInt32.ofNat kSchemaPayloadBytes) (ipcEncoder ipc)
        (announcedBound bound) p ↔ ((ipcEncoder ipc).run (lentWindow
          (channelWindow p))).1 = .ok () ∧ (serializeEnvelope ⟨encodedRow (ipcEncoder ipc)
            (channelWindow p), announcedBound bound⟩).length ≤ (channelWindow p).capacity :=
      and_iff_right hroom
    rw [hiff]
    by_cases hrow : 4 + ipc.length ≤ (channelWindow p).capacity
    · obtain ⟨hran, hsame⟩ := hfits hrow
      rw [hsame, announcement_length, and_iff_right hran]
    · refine iff_of_false (fun h => hfull (Nat.lt_of_not_le hrow) h.1) ?_
      unfold kAnnouncementFraming
      omega
  · refine iff_of_false (fun h => hroom h.1) ?_
    show ¬ _ ≤ min (UInt32.ofNat kSchemaPayloadBytes).toNat (p.maxSize.toNat - kFraming)
    unfold kFraming kAnnouncementFraming
    omega

/-- An announcement goes through if it gets out and fits the channel's window of the payload. -/
theorem write_ok_iff (n : Nat) (ipc : Bytes) (bound : Nat) :
    ((dds.write n ipc bound).ok = true ∧ (dds.write n ipc bound).serializeError = []) ↔
      dds.sent n = true ∧
        ipc.length + kAnnouncementFraming ≤ (channelWindow (dds.payload n)).capacity := by
  have hinside := dds.payload_inside n
  rw [← delivers_iff ipc bound hinside]
  by_cases hdelivers : Sample.Delivers (UInt32.ofNat kSchemaPayloadBytes) (ipcEncoder ipc)
      (announcedBound bound) (dds.payload n)
  · have hwindow : (channelWindow (dds.payload n)).Inv :=
      inv_bodyWindow hinside hdelivers.1
    have hbody := (encodeEnvelopeBody_spec hwindow
      rfl).1.mpr hdelivers.2
    have hwrite : dds.write n ipc bound = ⟨dds.sent n, []⟩ := by
      unfold Dds.write
      rw [serialize_of_ok hdelivers.1 rfl hbody]
      rfl
    rw [hwrite, and_iff_left hdelivers]
    exact and_iff_left rfl
  · refine iff_of_false ?_ (fun h => hdelivers h.2)
    intro hwritten
    have hok : (serialize _ _ _ _ _).ok = true := (Bool.and_eq_true_iff.mp hwritten.1).1
    rw [(serialize_refused hinside hdelivers).1] at hok
    cases hok

theorem capacity_channelWindow_le (p : Sample.SerializedPayload) :
    (channelWindow p).capacity ≤ kSchemaPayloadBytes :=
  Nat.min_le_left _ _

/-! ## What a declaration does

The data side of a call creates a writer at most once and never touches the schema side. The
schema side announces at most once, and a failed announcement leaves nothing of itself. -/

variable {L dds}

/-- The publication and the announcements a computation started at `x` leaves. -/
structure Left (published : Publication) (announced : List Announcement)
    (x y : TopicState × Participant) : Prop where
  published : y.1.published = published
  announced : y.2.announced = announced
  subscribed : y.1.subscribed = x.1.subscribed
  operations : x.2.operations ≤ y.2.operations

/-- Nothing that counts has changed since `x`. -/
abbrev Same (x y : TopicState × Participant) : Prop := Left x.1.published x.2.announced x y

theorem same_refl (x : TopicState × Participant) : Same x x := ⟨rfl, rfl, rfl, Nat.le_refl _⟩

/-- Started anywhere like `x`, the computation ends like `x`, and throws only what `φ` allows. -/
def Undisturbed (φ : PubSubError → Prop) (x : TopicState × Participant) (m : TopicAct Unit) :
    Prop :=
  ∀ y, Same x y → Act.Ends (fun _ => Same x) (fun e z => Same x z ∧ φ e) (m y)

/-- Fast DDS failed. -/
structure Failed (dds : Dds) (x : TopicState × Participant) (e : PubSubError) : Prop where
  status : e.status = .transportFailure
  broken : ¬dds.WorksFrom x.2.operations

section Undisturbed

variable {φ : PubSubError → Prop} {x : TopicState × Participant} {m n : TopicAct Unit}

theorem Undisturbed.seq (hm : Undisturbed φ x m) (hn : Undisturbed φ x n) :
    Undisturbed φ x (m >>= fun _ => n) :=
  fun y hy => (hm y hy).bind fun _ z hz => hn z hz

theorem Undisturbed.read {f : TopicState × Participant → TopicAct Unit}
    (h : ∀ y, Same x y → Undisturbed φ x (f y)) : Undisturbed φ x (Act.get >>= f) :=
  fun y hy => h y hy y hy

theorem undisturbed_pure : Undisturbed φ x (pure ()) := fun _ hy => hy

theorem undisturbed_modify {f : TopicState × Participant → TopicState × Participant}
    (hpub : ∀ y, (f y).1.published = y.1.published := by intro; rfl)
    (hann : ∀ y, (f y).2.announced = y.2.announced := by intro; rfl)
    (hsub : ∀ y, (f y).1.subscribed = y.1.subscribed := by intro; rfl)
    (hops : ∀ y, (f y).2.operations = y.2.operations := by intro; rfl) :
    Undisturbed φ x (Act.modify f) :=
  fun y hy => ⟨(hpub y).trans hy.published, (hann y).trans hy.announced,
    (hsub y).trans hy.subscribed, (hops y).symm ▸ hy.operations⟩

theorem undisturbed_operateOr (hφ : ∀ e, Failed dds x e → φ e) (what : Text) :
    Undisturbed φ x (TopicAct.operateOr dds what) := by
  intro y hy
  have hafter : Same x (y.1, { y.2 with operations := y.2.operations + 1 }) :=
    ⟨hy.published, hy.announced, hy.subscribed, Nat.le_succ_of_le hy.operations⟩
  show Act.Ends _ _ ((if dds.succeeds y.2.operations then pure () else Act.throw _) _)
  by_cases hok : dds.succeeds y.2.operations = true
  · rw [if_pos hok]
    exact hafter
  · rw [if_neg hok]
    exact ⟨hafter, hφ _ ⟨rfl, fun hworks => hok (hworks.succeeds _ hy.operations)⟩⟩

theorem undisturbed_registerType (hφ : ∀ e, Failed dds x e → φ e) (bound : Nat) :
    Undisturbed φ x (TopicAct.registerType dds bound) := by
  refine Undisturbed.read fun y _ => ?_
  split
  · exact undisturbed_pure
  · exact (undisturbed_operateOr hφ _).seq undisturbed_modify

theorem undisturbed_dropOtherTopic (hφ : ∀ e, Failed dds x e ∨ x.1.subscribed = true → φ e)
    (name : Bytes) (bound : Nat) : Undisturbed φ x (TopicAct.dropOtherTopic dds name bound) := by
  refine Undisturbed.read fun y hy => ?_
  split
  · exact undisturbed_pure
  · split
    · exact undisturbed_pure
    · split
      · next hheld => exact fun z hz => ⟨hz, hφ _ (Or.inr (hy.subscribed.symm.trans hheld))⟩
      · exact (undisturbed_operateOr (fun e h => hφ e (Or.inl h)) _).seq undisturbed_modify

theorem undisturbed_ensureDataTopic (hφ : ∀ e, Failed dds x e → φ e) (name : Bytes)
    (bound : Nat) : Undisturbed φ x (TopicAct.ensureDataTopic dds name bound) := by
  refine Undisturbed.read fun y _ => ?_
  split
  · exact undisturbed_pure
  · exact (undisturbed_registerType hφ bound).seq
      ((undisturbed_operateOr hφ _).seq undisturbed_modify)

theorem undisturbed_ensureSchemaTopic (hφ : ∀ e, Failed dds x e → φ e) (name : Bytes) :
    Undisturbed φ x (TopicAct.ensureSchemaTopic dds name) := by
  refine Undisturbed.read fun y _ => ?_
  split
  · exact undisturbed_pure
  · exact (undisturbed_operateOr hφ _).seq undisturbed_modify

end Undisturbed

/-- The publication with a data writer: the one it has, or a new one. -/
def Publication.withWriter (p : Publication) (options : TopicOptions) (bound : Nat) : Publication :=
  if p.dataWriter then p
  else { p with dataWriter := true, payloadBytes := bound, profile := options.profile }

@[simp] theorem Publication.withWriter_schemaWriter (p : Publication) (options : TopicOptions)
    (bound : Nat) : (p.withWriter options bound).schemaWriter = p.schemaWriter := by
  unfold withWriter
  split <;> rfl

@[simp] theorem Publication.withWriter_schemaIpc (p : Publication) (options : TopicOptions)
    (bound : Nat) : (p.withWriter options bound).schemaIpc = p.schemaIpc := by
  unfold withWriter
  split <;> rfl

theorem Publication.withWriter_dataWriter (p : Publication) (options : TopicOptions)
    (bound : Nat) : (p.withWriter options bound).dataWriter = true := by
  unfold Publication.withWriter
  split
  · assumption
  · rfl

/-- What the data side can throw for. -/
inductive Blocked (dds : Dds) (options : TopicOptions) (x : TopicState × Participant)
    (e : PubSubError) : Prop where
  | failed (failed : Failed dds x e)
  | held (subscribed : x.1.subscribed = true)
  | conflict (writer : x.1.published.dataWriter = true)
    (conflict : optionsConflict options ⟨x.1.published.profile, x.1.published.payloadBytes⟩ = true)
  | profile (missing : TopicAct.resolveDataWriterQos dds options.profile ≠ .ok ())

/-- What the schema side can throw for, with an IPC form. -/
inductive Unannounced (dds : Dds) (ipc : Bytes) (x : TopicState × Participant)
    (e : PubSubError) : Prop where
  | failed (failed : Failed dds x e)
  | tooLong (status : e.status = .transportFailure)
    (long : kSchemaPayloadBytes < ipc.length + kAnnouncementFraming)
  | conflict (writer : x.1.published.schemaWriter = true) (differs : ipc ≠ x.1.published.schemaIpc)

section Declare

variable {name ipc : Bytes} {schema : Option L.Schema} {options : TopicOptions} {bound : Nat}
  {x : TopicState × Participant}

theorem ensureDataWriter_ends :
    Act.Ends (fun _ => Left (x.1.published.withWriter options bound) x.2.announced x)
      (fun e y => Same x y ∧ Blocked dds options x e)
      (TopicAct.ensureDataWriter dds name options bound x) := by
  have hsame := same_refl x
  unfold TopicAct.ensureDataWriter Publication.withWriter
  rw [Act.get_bind]
  by_cases hwrt : x.1.published.dataWriter = true
  · rw [if_pos hwrt, if_pos hwrt]
    split
    · next hcon => exact ⟨hsame, .conflict hwrt hcon⟩
    · exact hsame
  · rw [if_neg hwrt, if_neg hwrt]
    have hfail : ∀ e, Failed dds x e → Blocked dds options x e := fun _ h => .failed h
    have hdrop : ∀ e, Failed dds x e ∨ x.1.subscribed = true → Blocked dds options x e :=
      fun _ h => h.elim .failed .held
    refine (undisturbed_dropOtherTopic hdrop name bound x hsame).bind fun _ y hy =>
      (undisturbed_ensureDataTopic hfail name bound y hy).bind fun _ z hz => ?_
    cases hpro : TopicAct.resolveDataWriterQos dds options.profile with
    | ok _ =>
      rw [Act.lift_ok_bind]
      refine (undisturbed_operateOr hfail _ z hz).bind fun _ w hw => ?_
      refine ⟨?_, hw.announced, hw.subscribed, hw.operations⟩
      rw [← hw.published]
    | error e =>
      rw [Act.lift_error_bind]
      refine ⟨hz, .profile ?_⟩
      rw [hpro]
      exact nofun

/-- The outcome of the schema side with an IPC form: the announcement stands already, or it is
written now. -/
inductive Announces (name ipc : Bytes) (x : TopicState × Participant) :
    TopicState × Participant → Prop where
  | again {y} (writer : x.1.published.schemaWriter = true) (ipc_eq : ipc = x.1.published.schemaIpc)
    (same : Same x y) : Announces name ipc x y
  | first {y} (unset : x.1.published.schemaWriter = false)
    (fits : ipc.length + kAnnouncementFraming ≤ kSchemaPayloadBytes)
    (left : Left { x.1.published with schemaWriter := true, schemaIpc := ipc }
      (x.2.announced ++ [⟨name, ipc, x.1.published.payloadBytes⟩]) x y) : Announces name ipc x y

/-- The one write of an announcement, with its writer there for it. -/
theorem writeAnnouncement_ends {y : TopicState × Participant} (hy : Same x y)
    (hunset : x.1.published.schemaWriter = false) :
    Act.Ends (fun _ => Announces name ipc x) (fun e z => Same x z ∧ Unannounced dds ipc x e)
      ((TopicAct.setSchemaWriter true >>= fun _ => TopicAct.writeAnnouncement dds name ipc) y) := by
  have hops : x.2.operations ≤ y.2.operations + 1 := Nat.le_succ_of_le hy.operations
  show Act.Ends _ _ ((if (dds.write y.2.operations ipc y.1.published.payloadBytes).ok = true ∧
    (dds.write y.2.operations ipc y.1.published.payloadBytes).serializeError = []
      then (_ : TopicAct Unit) else _) _)
  by_cases hwritten : (dds.write y.2.operations ipc y.1.published.payloadBytes).ok = true ∧
      (dds.write y.2.operations ipc y.1.published.payloadBytes).serializeError = []
  · rw [if_pos hwritten]
    have hfits := ((write_ok_iff dds _ ipc _).mp hwritten).2
    refine .first hunset (Nat.le_trans hfits (capacity_channelWindow_le _))
      ⟨?_, ?_, hy.subscribed, hops⟩
    · rw [← hy.published]
    · show y.2.announced ++ [⟨name, ipc, y.1.published.payloadBytes⟩] = _
      rw [hy.announced, hy.published]
  · rw [if_neg hwritten]
    -- the writer is taken away again
    refine ⟨⟨?_, hy.announced, hy.subscribed, hops⟩, ?_⟩
    · rw [← hy.published] at hunset ⊢
      show ({ y.1.published with schemaWriter := false } : Publication) = _
      rw [← hunset]
    · by_cases hlong : kSchemaPayloadBytes < ipc.length + kAnnouncementFraming
      · exact .tooLong rfl hlong
      · refine .failed ⟨rfl, fun hworks => hwritten ((write_ok_iff dds _ ipc _).mpr ⟨?_, ?_⟩)⟩
        · exact hworks.sent _ hy.operations
        · have hroomy := hworks.roomy _ hy.operations
          show _ ≤ min (UInt32.ofNat kSchemaPayloadBytes).toNat _
          rw [show (UInt32.ofNat kSchemaPayloadBytes).toNat = kSchemaPayloadBytes from rfl]
          omega

theorem announceIpc_ends : Act.Ends (fun _ => Announces name ipc x)
      (fun e y => Same x y ∧ Unannounced dds ipc x e) (TopicAct.announceIpc dds name ipc x) := by
  have hsame := same_refl x
  unfold TopicAct.announceIpc
  rw [Act.get_bind]
  by_cases hwrt : x.1.published.schemaWriter = true
  · rw [if_pos hwrt]
    split
    · next hipc => exact .again hwrt hipc hsame
    · next hipc => exact ⟨hsame, .conflict hwrt hipc⟩
  · rw [if_neg hwrt]
    have hfail : ∀ e, Failed dds x e → Unannounced dds ipc x e := fun _ h => .failed h
    exact (undisturbed_ensureSchemaTopic hfail name x hsame).bind fun _ y hy =>
      (undisturbed_operateOr hfail _ y hy).bind fun _ z hz =>
        writeAnnouncement_ends hz (Bool.eq_false_iff.mpr hwrt)

/-- The schema side is through: there was no schema, or it is announced. -/
def Answered (L : SchemaLib) (name : Bytes) (schema : Option L.Schema)
    (x y : TopicState × Participant) : Prop :=
  schema = none ∧ y = x ∨
    ∃ s ipc, schema = some s ∧ L.serializeIpc s = .ok ipc ∧ Announces name ipc x y

/-- Why the schema side threw. -/
def Unanswered (L : SchemaLib) (dds : Dds) (schema : Option L.Schema)
    (x : TopicState × Participant) (e : PubSubError) : Prop :=
  ∃ s, schema = some s ∧ ∀ ipc, L.serializeIpc s = .ok ipc → Unannounced dds ipc x e

theorem announce_ends : Act.Ends (fun _ => Answered L name schema x)
      (fun e y => Same x y ∧ Unanswered L dds schema x e)
      (TopicAct.announce L dds name schema x) := by
  cases schema with
  | none => exact Or.inl ⟨rfl, rfl⟩
  | some s =>
    show Act.Ends _ _ ((Act.lift (Except.mapError _ (L.serializeIpc s)) >>= _) x)
    cases hipc : L.serializeIpc s with
    | error _ =>
      refine ⟨same_refl x, s, rfl, ?_⟩
      rw [hipc]
      exact nofun
    | ok ipc =>
      refine announceIpc_ends.weaken (fun _ y h => Or.inr ⟨s, ipc, rfl, hipc, h⟩) ?_
      intro e y h
      refine ⟨h.1, s, rfl, ?_⟩
      intro _ hok
      cases hipc.symm.trans hok
      exact h.2

/-- A declaration that returned. -/
def Declared (L : SchemaLib) (name : Bytes) (schema : Option L.Schema) (options : TopicOptions)
    (bound : Nat) (x y : TopicState × Participant) : Prop :=
  ∃ z, Left (x.1.published.withWriter options bound) x.2.announced x z ∧
    Answered L name schema z y

/-- The data side of a declaration is through and the schema side throws. -/
def ThrowsLate (L : SchemaLib) (dds : Dds) (name : Bytes) (schema : Option L.Schema)
    (options : TopicOptions) (bound : Nat) (x : TopicState × Participant) : Prop :=
  ∃ z, TopicAct.ensureDataWriter dds name options bound x = (.ok (), z) ∧
    (TopicAct.announce L dds name schema z).1 ≠ .ok ()

/-- A declaration that threw: on the data side, or with the writer there and the schema not
announced. -/
inductive Undeclared (L : SchemaLib) (dds : Dds) (name : Bytes) (schema : Option L.Schema)
    (options : TopicOptions) (bound : Nat) (x : TopicState × Participant) (e : PubSubError)
    (y : TopicState × Participant) : Prop where
  | early (early : ¬ThrowsLate L dds name schema options bound x)
    (blocked : Blocked dds options x e) (same : Same x y)
  | late (z : TopicState × Participant) (throws : ThrowsLate L dds name schema options bound x)
    (left : Left (x.1.published.withWriter options bound) x.2.announced x z) (same : Same z y)
    (reason : Unanswered L dds schema z e)

variable (L dds name schema options bound x) in
theorem declareTopic_ends : Act.Ends (fun _ => Declared L name schema options bound x)
      (Undeclared L dds name schema options bound x)
      (TopicAct.declareTopic L dds name schema options bound x) := by
  have hdata : Act.Ends _ _ (TopicAct.ensureDataWriter dds name options bound x) :=
    ensureDataWriter_ends
  have hbind : TopicAct.declareTopic L dds name schema options bound =
      TopicAct.ensureDataWriter dds name options bound >>= fun _ =>
        TopicAct.announce L dds name schema := rfl
  rw [hbind]
  rcases hrun : TopicAct.ensureDataWriter dds name options bound x with ⟨_ | _, z⟩
  · rw [hrun] at hdata
    rw [Act.bind_of_error hrun]
    refine .early ?_ hdata.2 hdata.1
    intro hlate
    obtain ⟨_, hok, -⟩ := hlate
    cases congrArg (·.1.isOk) (hrun.symm.trans hok)
  · rw [hrun] at hdata
    rw [Act.bind_of_ok hrun]
    have hschema : Act.Ends _ _ (TopicAct.announce L dds name schema z) := announce_ends
    rcases hann : TopicAct.announce L dds name schema z with ⟨_ | _, y⟩
    · rw [hann] at hschema
      refine .late z ⟨z, hrun, ?_⟩ hdata hschema.1 hschema.2
      rw [hann]
      exact nofun
    · rw [hann] at hschema
      exact ⟨z, hdata, hschema⟩

end Declare

theorem Impl.onTopicState_self {name : Bytes} {m : TopicAct Unit} {r : Except PubSubError Unit}
    {x : TopicState × Participant} (h : m (s.topic name, s.participant) = (r, x)) :
    Impl.onTopicState name m s =
      (r, { topics := Function.update s.topics name (some x.1), participant := x.2 }) := by
  unfold Impl.onTopicState
  rw [h]

theorem Impl.topic_update (s : Impl) (name other : Bytes) (ts : TopicState) (p : Participant) :
    ({ topics := Function.update s.topics name (some ts), participant := p } : Impl).topic other =
      Function.update s.topic name ts other :=
  Function.apply_update (fun _ (o : Option TopicState) => o.getD {}) s.topics name (some ts) other

/-! ## Histories -/

variable (dds)

/-- `Publish`; `written` is what `WriteSample` comes to. -/
def Impl.publish (inside : Bool) (segments : List Bytes) (written : Except PubSubError Unit) :
    Act Impl PubSubError Unit := do
  Act.lift (refuseIfInside inside "Publish")
  let name ← Act.lift (topicName segments)
  let s ← Act.get
  if (s.topic name).published.dataWriter then Act.lift written
  else Act.throw ⟨.topicNotDeclared,
    ascii "FastDDS: topic not declared for publishing on this instance: " ++ name⟩

inductive Event (L : SchemaLib) where
  | createTopic (inside : Bool) (segments : List Bytes) (schema : Option L.Schema)
    (options : TopicOptions)
  | publish (inside : Bool) (segments : List Bytes) (written : Except PubSubError Unit)

/-- One call: what it returns or throws, and the state after it. -/
def Impl.step : Event L → Act Impl PubSubError Unit
  | .createTopic inside segments schema options =>
    createTopicWithOptions L dds maxPayloadBytes inside segments schema options
  | .publish inside segments written => publish inside segments written

/-- The state after a history of calls. -/
def Impl.play : Impl → List (Event L) → Impl
  | s, [] => s
  | s, e :: es => play (step dds maxPayloadBytes e s).2 es

/-- What is checked before the lock is taken. -/
structure Admitted (maxPayloadBytes : Nat) (name : Bytes) (inside : Bool) (segments : List Bytes)
    (options : TopicOptions) : Prop where
  door : refuseIfInside inside "CreateTopicWithOptions" = .ok ()
  topic : joinSegments segments = .ok name
  bound : Impl.requireBound (Impl.boundOf maxPayloadBytes options) = .ok ()

theorem createTopic_admitted {name : Bytes} {inside : Bool} {segments : List Bytes}
    {options : TopicOptions} (h : Admitted maxPayloadBytes name inside segments options)
    (schema : Option L.Schema) (s : Impl) :
    Impl.createTopicWithOptions L dds maxPayloadBytes inside segments schema options s =
      Impl.onTopicState name (TopicAct.declareTopic L dds name schema options
        (Impl.boundOf maxPayloadBytes options)) s := by
  unfold Impl.createTopicWithOptions
  rw [h.door, Act.lift_ok_bind, topicName_ok_iff.mpr h.topic, Act.lift_ok_bind, h.bound,
    Act.lift_ok_bind]

/-- One call: turned away at the door, or a declaration of the topic. -/
theorem createTopic_cases (inside : Bool) (segments : List Bytes) (schema : Option L.Schema)
    (options : TopicOptions) (s : Impl) :
    (∃ e, Impl.step dds maxPayloadBytes (.createTopic inside segments schema options) s =
        (.error e, s) ∧ ∀ name, ¬Admitted maxPayloadBytes name inside segments options) ∨
    ∃ name r x, Admitted maxPayloadBytes name inside segments options ∧
      Impl.step dds maxPayloadBytes (.createTopic inside segments schema options) s =
        (r, { topics := Function.update s.topics name (some x.1), participant := x.2 }) ∧
      Act.Ends (fun _ => Declared L name schema options (Impl.boundOf maxPayloadBytes options)
        (s.topic name, s.participant))
        (Undeclared L dds name schema options (Impl.boundOf maxPayloadBytes options)
          (s.topic name, s.participant)) (r, x) := by
  by_cases hadmitted : ∃ name, Admitted maxPayloadBytes name inside segments options
  · obtain ⟨name, hadmitted⟩ := hadmitted
    refine Or.inr ⟨name, _, _, hadmitted, ?_, declareTopic_ends ..⟩
    exact (createTopic_admitted dds maxPayloadBytes hadmitted schema s).trans
      (Impl.onTopicState_self rfl)
  · have hnone : ∀ name, ¬Admitted maxPayloadBytes name inside segments options :=
      fun name h => hadmitted ⟨name, h⟩
    refine Or.inl ?_
    unfold Impl.step Impl.createTopicWithOptions
    dsimp only
    cases hdoor : refuseIfInside inside "CreateTopicWithOptions" with
    | error e => exact ⟨e, rfl, hnone⟩
    | ok _ =>
      rw [Act.lift_ok_bind]
      cases hname : topicName segments with
      | error e => exact ⟨e, rfl, hnone⟩
      | ok name =>
        rw [Act.lift_ok_bind]
        cases hbound : Impl.requireBound (Impl.boundOf maxPayloadBytes options) with
        | error e => exact ⟨e, rfl, hnone⟩
        | ok _ => exact absurd ⟨hdoor, topicName_ok_iff.mp hname, hbound⟩ (hnone name)

theorem publish_state {inside : Bool} {segments : List Bytes} {written : Except PubSubError Unit} :
    (Impl.publish inside segments written s).2 = s := by
  unfold Impl.publish
  cases refuseIfInside inside "Publish" with
  | error e => rfl
  | ok _ =>
    rw [Act.lift_ok_bind]
    cases topicName segments with
    | error e => rfl
    | ok _ =>
      rw [Act.lift_ok_bind, Act.get_bind]
      split <;> rfl

/-- A schema writer stands for an announcement with its bytes and the topic's bound, which the
schema channel has room for. -/
def Publication.Backed (p : Publication) (name : Bytes) (announced : List Announcement) : Prop :=
  p.schemaWriter = true → p.dataWriter = true ∧
    ⟨name, p.schemaIpc, p.payloadBytes⟩ ∈ announced ∧
    p.schemaIpc.length + kAnnouncementFraming ≤ kSchemaPayloadBytes

/-- The call declares the topic. -/
def Event.Declares (name : Bytes) : Event L → Prop
  | .createTopic _ segments _ _ => joinSegments segments = .ok name
  | .publish .. => False

/-- The call declares the topic, and throws with the topic's data writer there. -/
def Event.ThrowsLate (name : Bytes) (s : Impl) : Event L → Prop
  | .createTopic inside segments schema options =>
    Admitted maxPayloadBytes name inside segments options ∧
      Declare.ThrowsLate L dds name schema options (Impl.boundOf maxPayloadBytes options)
        (s.topic name, s.participant)
  | .publish .. => False

/-- No declaration of the topic returns. -/
def Fails (name : Bytes) : Impl → List (Event L) → Prop
  | _, [] => True
  | s, e :: es => (e.Declares name → (Impl.step dds maxPayloadBytes e s).1 ≠ .ok ()) ∧
    Fails name (Impl.step dds maxPayloadBytes e s).2 es

/-- Some declaration of the topic throws with the topic's data writer there. -/
def FailsLate (name : Bytes) : Impl → List (Event L) → Prop
  | _, [] => False
  | s, e :: es => e.ThrowsLate dds maxPayloadBytes name s ∨
    FailsLate name (Impl.step dds maxPayloadBytes e s).2 es

section Backed

variable {name ipc : Bytes} {x y : TopicState × Participant}

theorem Publication.Backed.withWriter {p : Publication} {as : List Announcement}
    (h : p.Backed name as) (options : TopicOptions) (bound : Nat) :
    (p.withWriter options bound).Backed name as := by
  unfold Publication.withWriter
  split
  · exact h
  · next hnone => exact fun hwrt => absurd (h hwrt).1 hnone

/-- The schema side leaves an announcement with the bytes and the bound. -/
theorem Announces.backed (hann : Announces name ipc x y)
    (hwrt : x.1.published.dataWriter = true) (h : x.1.published.Backed name x.2.announced) :
    x.2.announced ⊆ y.2.announced ∧ y.1.published.Backed name y.2.announced ∧
      ⟨name, ipc, y.1.published.payloadBytes⟩ ∈ y.2.announced ∧
      ipc.length + kAnnouncementFraming ≤ kSchemaPayloadBytes := by
  cases hann with
  | again writer ipc_eq same =>
    rw [same.published, same.announced, ipc_eq]
    exact ⟨Subset.refl _, h, (h writer).2⟩
  | first _ fits left =>
    rw [left.published, left.announced]
    have hnew : (⟨name, ipc, x.1.published.payloadBytes⟩ : Announcement) ∈
        x.2.announced ++ [⟨name, ipc, x.1.published.payloadBytes⟩] :=
      mem_append_right _ mem_cons_self
    exact ⟨subset_append_left _ _, fun _ => ⟨hwrt, hnew, fits⟩, hnew, fits⟩

theorem Declared.backed {schema : Option L.Schema} {options : TopicOptions} {bound : Nat}
    (hdec : Declared L name schema options bound x y)
    (h : x.1.published.Backed name x.2.announced) :
    x.2.announced ⊆ y.2.announced ∧ y.1.published.Backed name y.2.announced ∧
      ∀ s, schema = some s → ∃ ipc, L.serializeIpc s = .ok ipc ∧
        ⟨name, ipc, y.1.published.payloadBytes⟩ ∈ y.2.announced ∧
        ipc.length + kAnnouncementFraming ≤ kSchemaPayloadBytes := by
  obtain ⟨z, hz, hsch⟩ := hdec
  have hbkd : z.1.published.Backed name z.2.announced := by
    rw [hz.published, hz.announced]
    exact h.withWriter options bound
  rcases hsch with ⟨rfl, rfl⟩ | ⟨s, ipc, rfl, hipc, hann⟩
  · exact ⟨fun a ha => hz.announced ▸ ha, hbkd, nofun⟩
  · have hwrt : z.1.published.dataWriter = true := by
      rw [hz.published]
      exact Publication.withWriter_dataWriter ..
    obtain ⟨hgr, hafter, hwr⟩ := hann.backed hwrt hbkd
    refine ⟨fun a ha => hgr (hz.announced ▸ ha), hafter, ?_⟩
    intro _ hs
    cases hs
    exact ⟨ipc, hipc, hwr⟩

theorem Undeclared.backed {dds : Dds} {schema : Option L.Schema} {options : TopicOptions}
    {bound : Nat} {e : PubSubError} (hund : Undeclared L dds name schema options bound x e y)
    (h : x.1.published.Backed name x.2.announced) :
    x.2.announced ⊆ y.2.announced ∧ y.1.published.Backed name y.2.announced := by
  cases hund with
  | early _ _ same => exact ⟨fun a ha => same.announced ▸ ha, same.published ▸ same.announced ▸ h⟩
  | late z _ left same _ =>
    have hann : y.2.announced = x.2.announced := same.announced.trans left.announced
    refine ⟨fun a ha => hann ▸ ha, ?_⟩
    rw [same.published, left.published, hann]
    exact h.withWriter options bound

end Backed

/-- Every schema writer of the provider stands for an announcement. -/
def Impl.Backed (s : Impl) : Prop :=
  ∀ name, (s.topic name).published.Backed name s.participant.announced

theorem Impl.Backed.update (h : s.Backed) {name : Bytes} {x : TopicState × Participant}
    (hgr : s.participant.announced ⊆ x.2.announced)
    (hself : x.1.published.Backed name x.2.announced) :
    Impl.Backed { topics := Function.update s.topics name (some x.1), participant := x.2 } := by
  intro other
  rw [Impl.topic_update]
  by_cases hoth : other = name
  · subst hoth
    rw [Function.update_self]
    exact hself
  · rw [Function.update_of_ne hoth]
    intro hwrt
    obtain ⟨hdata, hann, hfits⟩ := h other hwrt
    exact ⟨hdata, hgr hann, hfits⟩

theorem backed_step (h : s.Backed) (e : Event L) :
    (Impl.step dds maxPayloadBytes e s).2.Backed := by
  cases e with
  | publish inside segments written => exact publish_state.symm ▸ h
  | createTopic inside segments schema options =>
    rcases createTopic_cases dds maxPayloadBytes inside segments schema options s with
      ⟨e, hrun, -⟩ | ⟨name, r, x, -, hrun, hends⟩
    · rw [hrun]
      exact h
    · rw [hrun]
      obtain ⟨hgr, hself⟩ : s.participant.announced ⊆ x.2.announced ∧
          x.1.published.Backed name x.2.announced :=
        (hends.weaken (fun _ _ hd => ⟨(hd.backed (h name)).1, (hd.backed (h name)).2.1⟩)
          fun _ _ hu => hu.backed (h name)).always
      exact h.update hgr hself

theorem backed_play (es : List (Event L)) : ∀ {s : Impl}, s.Backed →
    (Impl.play dds maxPayloadBytes s es).Backed := by
  induction es with
  | nil => exact id
  | cons e es ih => exact fun h => ih (backed_step dds maxPayloadBytes h e)

/-! ## After a failure -/

section Failure

variable {name : Bytes} {x y : TopicState × Participant} {schema : Option L.Schema}
  {options : TopicOptions} {bound : Nat}

/-- Nobody has published on the topic or subscribed to it. -/
structure Untouched (ts : TopicState) : Prop where
  published : ts.published = {}
  subscribed : ts.subscribed = false

/-- What a call does to a topic: nothing, or a declaration. -/
theorem step_topic (e : Event L) (name : Bytes) (s : Impl) :
    ((Impl.step dds maxPayloadBytes e s).2.topic name = s.topic name ∧
      (e.Declares name → (Impl.step dds maxPayloadBytes e s).1 ≠ .ok ()) ∧
      ¬e.ThrowsLate dds maxPayloadBytes name s) ∨
    ∃ schema options bound x, e.Declares name ∧
      (Impl.step dds maxPayloadBytes e s).2.topic name = x.1 ∧
      (e.ThrowsLate dds maxPayloadBytes name s ↔
        ThrowsLate L dds name schema options bound (s.topic name, s.participant)) ∧
      Act.Ends (fun _ => Declared L name schema options bound (s.topic name, s.participant))
        (Undeclared L dds name schema options bound (s.topic name, s.participant))
        ((Impl.step dds maxPayloadBytes e s).1, x) := by
  cases e with
  | publish inside segments written =>
    exact Or.inl ⟨congrArg (Impl.topic · name) publish_state,
      False.elim, id⟩
  | createTopic inside segments schema options =>
    rcases createTopic_cases dds maxPayloadBytes inside segments schema options s with
      ⟨e, hrun, hnone⟩ | ⟨topic, r, x, htopic, hrun, hends⟩
    · rw [hrun]
      exact Or.inl ⟨rfl, fun _ => nofun, fun hlate => hnone name hlate.1⟩
    · by_cases hname : name = topic
      · subst hname
        refine Or.inr ⟨schema, options, _, x, htopic.topic, ?_, and_iff_right htopic, ?_⟩
        · rw [hrun, Impl.topic_update, Function.update_self]
        · rw [hrun]
          exact hends
      · have hnot : ¬(Event.createTopic inside segments schema options).Declares name :=
          fun h => hname (Except.ok.inj (h.symm.trans htopic.topic))
        refine Or.inl ⟨?_, fun h => absurd h hnot, fun hlate => hnot hlate.1.topic⟩
        rw [hrun, Impl.topic_update, Function.update_of_ne hname]

theorem Left.writer {announced : List Announcement}
    (h : Left (x.1.published.withWriter options bound) announced x y) :
    y.1.published.dataWriter = true := by
  rw [h.published]
  exact Publication.withWriter_dataWriter ..

theorem Answered.writer (h : Answered L name schema x y)
    (hwriter : x.1.published.dataWriter = true) : y.1.published.dataWriter = true := by
  rcases h with ⟨-, rfl⟩ | ⟨_, ipc, -, -, hann⟩
  · exact hwriter
  · cases hann with
    | again _ _ same => exact same.published ▸ hwriter
    | first _ _ left =>
      rw [left.published]
      exact hwriter

/-- A data writer stays. -/
theorem writer_step (h : (s.topic name).published.dataWriter = true) (e : Event L) :
    ((Impl.step dds maxPayloadBytes e s).2.topic name).published.dataWriter = true := by
  rcases step_topic dds maxPayloadBytes e name s with
    ⟨hsame, -, -⟩ | ⟨schema, options, bound, x, -, hx, -, hends⟩
  · rwa [hsame]
  · rw [hx]
    have hboth : Act.Ends (fun _ y => y.1.published.dataWriter = true)
        (fun _ y => y.1.published.dataWriter = true)
        ((Impl.step dds maxPayloadBytes e s).1, x) := by
      refine hends.weaken ?_ ?_
      · intro _ y hdeclared
        obtain ⟨z, hz, hanswered⟩ := hdeclared
        exact hanswered.writer hz.writer
      · intro _ y hundeclared
        cases hundeclared with
        | early _ _ same => exact same.published ▸ h
        | late z _ left same _ => exact same.published ▸ left.writer
    exact hboth.always

theorem writer_play (es : List (Event L)) : ∀ {s : Impl},
    (s.topic name).published.dataWriter = true →
    ((Impl.play dds maxPayloadBytes s es).topic name).published.dataWriter = true := by
  induction es with
  | nil => exact id
  | cons e es ih => exact fun h => ih (writer_step dds maxPayloadBytes h e)

/-- A call that fails on an untouched topic leaves it untouched, or throws late and leaves a
data writer. -/
theorem untouched_step (h : Untouched (s.topic name)) {e : Event L}
    (hfails : e.Declares name → (Impl.step dds maxPayloadBytes e s).1 ≠ .ok ()) :
    (¬e.ThrowsLate dds maxPayloadBytes name s ∧
      Untouched ((Impl.step dds maxPayloadBytes e s).2.topic name)) ∨
    e.ThrowsLate dds maxPayloadBytes name s ∧
      ((Impl.step dds maxPayloadBytes e s).2.topic name).published.dataWriter = true := by
  rcases step_topic dds maxPayloadBytes e name s with
    ⟨hsame, -, hearly⟩ | ⟨schema, options, bound, x, hdeclares, hx, hlate, hends⟩
  · exact Or.inl ⟨hearly, hsame ▸ h⟩
  · rw [hx, hlate]
    cases hr : (Impl.step dds maxPayloadBytes e s).1 with
    | ok _ => exact absurd hr (hfails hdeclares)
    | error _ =>
      rw [hr] at hends
      cases hends with
      | early early _ same =>
        exact Or.inl ⟨early, same.published.trans h.published, same.subscribed.trans h.subscribed⟩
      | late z throws left same _ => exact Or.inr ⟨throws, same.published ▸ left.writer⟩

theorem untouched_play (es : List (Event L)) : ∀ {s : Impl}, Untouched (s.topic name) →
    Fails dds maxPayloadBytes name s es →
    (¬FailsLate dds maxPayloadBytes name s es ∧
      Untouched ((Impl.play dds maxPayloadBytes s es).topic name)) ∨
    FailsLate dds maxPayloadBytes name s es ∧
      ((Impl.play dds maxPayloadBytes s es).topic name).published.dataWriter = true := by
  induction es with
  | nil => exact fun h _ => Or.inl ⟨id, h⟩
  | cons e es ih =>
    intro s h hfails
    rcases untouched_step dds maxPayloadBytes h hfails.1 with ⟨hearly, hnext⟩ | ⟨hlate, hwriter⟩
    · rcases ih hnext hfails.2 with ⟨hnot, hrest⟩ | ⟨hlate, hwriter⟩
      · exact Or.inl ⟨not_or.mpr ⟨hearly, hnot⟩, hrest⟩
      · exact Or.inr ⟨Or.inr hlate, hwriter⟩
    · exact Or.inr ⟨Or.inl hlate, writer_play dds maxPayloadBytes es hwriter⟩

/-- A declaration of an untouched topic that meets no failure is taken. -/
theorem retry_accepted {segments : List Bytes} (h : Untouched (s.topic name))
    (hworks : dds.WorksFrom s.participant.operations)
    (hadmitted : Admitted maxPayloadBytes name false segments options)
    (hprofile : TopicAct.resolveDataWriterQos dds options.profile = .ok ())
    (hschema : ∀ sch, schema = some sch → ∃ ipc, L.serializeIpc sch = .ok ipc ∧
      ipc.length + kAnnouncementFraming ≤ kSchemaPayloadBytes) :
    (Impl.createTopicWithOptions L dds maxPayloadBytes false segments schema options s).1 =
      .ok () := by
  have hends := declareTopic_ends L dds name schema options (Impl.boundOf maxPayloadBytes options)
    (s.topic name, s.participant)
  rw [createTopic_admitted dds maxPayloadBytes hadmitted schema s]
  rcases hresult : TopicAct.declareTopic L dds name schema options
    (Impl.boundOf maxPayloadBytes options) (s.topic name, s.participant) with ⟨e | _, y⟩
  · rw [hresult] at hends
    cases hends with
    | early _ blocked _ =>
      cases blocked with
      | failed failed => exact absurd hworks failed.broken
      | held subscribed => exact absurd (h.subscribed.symm.trans subscribed) nofun
      | conflict writer _ =>
        rw [h.published] at writer
        cases writer
      | profile missing => exact absurd hprofile missing
    | late z _ left _ reason =>
      obtain ⟨sch, hsch, hreason⟩ := reason
      obtain ⟨ipc, hipc, hfits⟩ := hschema sch hsch
      cases hreason ipc hipc with
      | failed failed =>
        have hlater : dds.WorksFrom z.2.operations :=
          ⟨fun n hn => hworks.succeeds n (Nat.le_trans left.operations hn),
            fun n hn => hworks.sent n (Nat.le_trans left.operations hn),
            fun n hn => hworks.roomy n (Nat.le_trans left.operations hn)⟩
        exact absurd hlater failed.broken
      | tooLong _ long => omega
      | conflict writer _ =>
        rw [left.published, Publication.withWriter_schemaWriter, h.published] at writer
        cases writer
  · rw [Impl.onTopicState_self hresult]

end Failure

/-- The topic is as if it had never been declared: `Publish` is refused as undeclared, and a
declaration that meets no failure of Fast DDS is taken, whatever bound, profile and schema it
comes with. -/
structure Clean (L : SchemaLib) (segments : List Bytes) (s : Impl) : Prop where
  undeclared : ∀ written, ∃ text, (Impl.publish false segments written s).1 =
    .error ⟨.topicNotDeclared, text⟩
  retry : dds.WorksFrom s.participant.operations → ∀ (schema : Option L.Schema) options,
    Impl.requireBound (Impl.boundOf maxPayloadBytes options) = .ok () →
    TopicAct.resolveDataWriterQos dds options.profile = .ok () →
    (∀ sch, schema = some sch → ∃ ipc, L.serializeIpc sch = .ok ipc ∧
      ipc.length + kAnnouncementFraming ≤ kSchemaPayloadBytes) →
    (Impl.createTopicWithOptions L dds maxPayloadBytes false segments schema options s).1 = .ok ()

section Clean

variable {segments : List Bytes} {name : Bytes}

theorem publish_named (hname : joinSegments segments = .ok name)
    (written : Except PubSubError Unit) : Impl.publish false segments written s =
      (if (s.topic name).published.dataWriter then Act.lift written
      else Act.throw ⟨.topicNotDeclared,
        ascii "FastDDS: topic not declared for publishing on this instance: " ++ name⟩) s := by
  unfold Impl.publish
  rw [topicName_ok_iff.mpr hname]
  rfl

theorem clean_of_untouched (hname : joinSegments segments = .ok name)
    (h : Untouched (s.topic name)) : Clean dds maxPayloadBytes L segments s := by
  refine ⟨?_, ?_⟩
  · intro written
    rw [publish_named hname, h.published]
    exact ⟨_, rfl⟩
  · intro hworks schema options hbound hprofile hschema
    exact retry_accepted dds maxPayloadBytes h hworks ⟨rfl, hname, hbound⟩ hprofile hschema

theorem not_clean_of_writer (hname : joinSegments segments = .ok name)
    (h : (s.topic name).published.dataWriter = true) : ¬Clean dds maxPayloadBytes L segments s := by
  intro hclean
  obtain ⟨_, hrefused⟩ := hclean.undeclared (.ok ())
  rw [publish_named hname, if_pos h] at hrefused
  cases hrefused

end Clean

/-- **Declarations.** Whatever fails, a declaration with a schema that returns has its bytes and
the topic's bound announced, in a sample the schema channel has room for. And where no
declaration of a topic has returned, one that fails leaves the topic clean exactly if none of
them threw with the data writer there. -/
theorem declaration_announced_or_clean (es : List (Event L)) (inside : Bool)
    (segments : List Bytes) (schema : Option L.Schema) (options : TopicOptions) (name : Bytes)
    (hname : joinSegments segments = .ok name) :
    let call := Event.createTopic inside segments schema options
    let s := Impl.play dds maxPayloadBytes {} es
    let after := Impl.step dds maxPayloadBytes call s
    (∀ sch, schema = some sch → after.1 = .ok () → ∃ ipc, L.serializeIpc sch = .ok ipc ∧
      ⟨name, ipc, (after.2.topic name).published.payloadBytes⟩ ∈ after.2.participant.announced ∧
      ipc.length + kAnnouncementFraming ≤ kSchemaPayloadBytes) ∧
    (Fails dds maxPayloadBytes name {} es → after.1 ≠ .ok () →
      (Clean dds maxPayloadBytes L segments after.2 ↔
        ¬FailsLate dds maxPayloadBytes name {} es ∧
          ¬call.ThrowsLate dds maxPayloadBytes name s)) := by
  intro call s after
  refine ⟨?_, ?_⟩
  · intro sch hschema hok
    have hbacked : s.Backed := backed_play dds maxPayloadBytes es fun _ hwriter => nomatch hwriter
    have hcases := createTopic_cases dds maxPayloadBytes inside segments schema options s
    rcases hcases with ⟨e, hrun, -⟩ | ⟨topic, r, x, htopic, hrun, hends⟩
    · exact nomatch hok.symm.trans (congrArg Prod.fst hrun)
    · cases hname.symm.trans htopic.topic
      cases (show r = .ok () from (congrArg Prod.fst hrun).symm.trans hok)
      obtain ⟨_, _, hwritten⟩ := Declared.backed hends (hbacked name)
      rw [show after = _ from hrun, Impl.topic_update, Function.update_self]
      exact hwritten sch hschema
  · intro hfails hfailed
    rcases untouched_play dds maxPayloadBytes es ⟨rfl, rfl⟩ hfails with
      ⟨hearly, huntouched⟩ | ⟨hlate, hwriter⟩
    · rcases untouched_step dds maxPayloadBytes huntouched fun _ => hfailed with
        ⟨hnot, hafter⟩ | ⟨hlate, hwriter⟩
      · exact iff_of_true (clean_of_untouched dds maxPayloadBytes hname hafter) ⟨hearly, hnot⟩
      · exact iff_of_false (not_clean_of_writer dds maxPayloadBytes hname hwriter)
          fun h => h.2 hlate
    · exact iff_of_false (not_clean_of_writer dds maxPayloadBytes hname
        (writer_step dds maxPayloadBytes hwriter call)) fun h => h.1 hlate

/-- One schema, of one byte. -/
def oneSchema : SchemaLib where
  Schema := Unit
  serializeIpc _ := .ok [1]
  serializeIpc_ne_nil := ne_nil_of_singleton

/-- Fast DDS fails at one operation; its payloads have 64 bytes. -/
def failingAt (n : Nat) : Dds where
  succeeds m := m ≠ n
  payload _ := smallPayload
  payload_inside _ := by decide
  xcdr2 := false
  sent _ := true
  hasProfile _ := true

def createA (schema : Option Unit) (bound : Nat) : Event oneSchema :=
  .createTopic false [[97]] schema ⟨"", bound⟩

/-- A declaration that returns, and one whose data type cannot be registered. -/
theorem declaration_announced_or_clean_once : (⟨[97], [1], 65536⟩ ∈
      (Impl.step (failingAt 9) 65536 (createA (some ()) 0) {}).2.participant.announced) ∧
    Clean (failingAt 0) 65536 oneSchema [[97]]
      (Impl.step (failingAt 0) 65536 (createA (some ()) 0) {}).2 := by
  refine ⟨?_, ?_⟩
  · obtain ⟨_, hipc, hwritten, -⟩ := (declaration_announced_or_clean (L := oneSchema)
      (failingAt 9) 65536 [] false [[97]] (some ()) ⟨"", 0⟩ [97] (by decide)).1 () rfl
      (by decide +kernel)
    cases hipc
    exact hwritten
  · refine ((declaration_announced_or_clean (L := oneSchema) (failingAt 0) 65536 [] false
      [[97]] (some ()) ⟨"", 0⟩ [97] (by decide)).2 trivial (by decide +kernel)).mpr ⟨id, ?_⟩
    intro hlate
    obtain ⟨-, z, hdata, -⟩ := hlate
    cases congrArg (fun r => r.1.isOk) hdata

/-- The `__schema` topic cannot be created: the call throws, but `Publish` goes through, and a
retry at another bound is refused. -/
theorem failed_declaration_publishes :
    let failed := Impl.step (failingAt 3) 65536 (createA (some ()) 0) {}
    failed.1.isOk = false ∧ (Impl.publish false [[97]] (.ok ()) failed.2).1 = .ok () ∧
      (Impl.step (failingAt 3) 65536 (createA (some ()) 128) failed.2).1.isOk = false ∧
      (Impl.step (failingAt 9) 65536 (createA (some ()) 128) {}).1.isOk = true := by
  decide +kernel

/-! ## Declarations when nothing fails -/

/-- The topic was announced with `first`, and no subscription holds it. -/
structure Announced (first : Option Bytes) (ts : TopicState) : Prop where
  free : ts.subscribed = false
  schemaWriter : ts.published.schemaWriter = first.isSome
  schemaIpc : ∀ ipc, first = some ipc → ts.published.schemaIpc = ipc

theorem Announced.same {first : Option Bytes} {options : TopicOptions} {bound : Nat}
    {as : List Announcement} {x y : TopicState × Participant} (h : Announced first x.1)
    (hleft : Left (x.1.published.withWriter options bound) as x y) : Announced first y.1 := by
  refine ⟨hleft.subscribed.trans h.free, ?_, ?_⟩
  · rw [hleft.published, Publication.withWriter_schemaWriter]
    exact h.schemaWriter
  · intro ipc hipc
    rw [hleft.published, Publication.withWriter_schemaIpc]
    exact h.schemaIpc ipc hipc

end Fletcher.FastDds.Declare
