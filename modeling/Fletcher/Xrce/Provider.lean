import Fletcher.Lib.Act
import Fletcher.PubSub.Seam

/-!
# The XRCE provider

The provider keeps, per topic, the ids of the entities it asked the Agent for, and asks
again only where an id is still invalid. The Agent is on the other side of a session: what
it holds is part of the state here (`entities`), what it answers is a parameter, one
`Answer` per request in the order of the requests. `Agent.Confirms` is the Agent that
answers every request.

Three things keep the model close to the source.

* **State survives exceptions.** `ts` is a reference into the map, so what a call had
  written before it threw stays written. Calls are `Act`s.
* **Ids have sixteen bits here and twelve on the wire.** An entity is known to the Agent
  under `ObjectId.raw`.
* **Deletions are not awaited.** A delete request is buffered, and the Agent, which gets
  the requests in order, has dropped the entity before it sees the next one.
-/

namespace Fletcher.Xrce

open Lib Utf8 Fletcher.Core PubSub

/-! ## Entities -/

/-- The `UXR_*_ID` types; `invalid` is what a default-constructed id carries. -/
inductive Kind where
  | invalid | participant | topic | publisher | subscriber | datawriter | datareader
  deriving DecidableEq, Repr

/-- `uxrObjectId`. -/
structure ObjectId where
  id : Nat
  type : Kind
  deriving DecidableEq, Repr

/-- A default-constructed id. -/
def ObjectId.unset : ObjectId := ⟨0, .invalid⟩

/-- `uxr_object_id_to_raw`: two bytes, twelve bits of them for the id. -/
def ObjectId.raw (o : ObjectId) : Nat × Kind := (o.id % 2 ^ 12, o.type)

/-- What comes of one request to create an entity. -/
structure Answer where
  /-- `uxr_run_session_until_all_status` returned true. -/
  answered : Bool
  status : Nat
  /-- The Agent has the entity, whatever it said. -/
  created : Bool
  deriving DecidableEq, Repr

/-- The status is `UXR_STATUS_OK` or `UXR_STATUS_OK_MATCHED`. -/
def Answer.isOk (a : Answer) : Bool := a.status == 0 || a.status == 1

/-- The Agent's answers, by the number of the request. -/
abbrev Agent := Nat → Answer

/-- The Agent confirms every request. -/
def Agent.Confirms (agent : Agent) : Prop :=
  ∀ n, (agent n).answered = true ∧ (agent n).isOk = true ∧ (agent n).created = true

/-! ## State -/

/-- `Impl::TopicState`. -/
structure TopicState (Schema Callback : Type) where
  participantId : ObjectId := .unset
  topicId : ObjectId := .unset
  publisherId : ObjectId := .unset
  writerId : ObjectId := .unset
  subscriberId : ObjectId := .unset
  readerId : ObjectId := .unset
  schemaTopicId : ObjectId := .unset
  schemaPublisherId : ObjectId := .unset
  schemaWriterId : ObjectId := .unset
  schemaSubscriberId : ObjectId := .unset
  schemaReaderId : ObjectId := .unset
  maxPayloadBytes : Nat := 0
  schema : Option Schema := none
  sharedSchema : Option Schema := none
  declared : DeclaredSchema := ⟨[], true⟩
  isPublisher : Bool := false
  hasReader : Bool := false
  channel : Option Callback := none
  /-- The number of the subscription's arrival. -/
  schemaArrival : Option Nat := none
  /-- The arrival that may still be resolved. -/
  schemaResolver : Option Nat := none
  pending : List Envelope := []

/-- What is sent to the Agent without waiting for a status. -/
inductive Message where
  | data (writer : ObjectId) (bytes : Bytes)
  | requestData (reader : ObjectId)
  | cancelData (reader : ObjectId)
  deriving DecidableEq, Repr

/-- What the topics share: the session, and the Agent at its other end. -/
structure Client (Schema Callback : Type) where
  nextId : Nat := 1
  /-- Creation requests so far. -/
  requests : Nat := 0
  /-- What the Agent holds. -/
  entities : Nat × Kind → Bool := fun _ => false
  messages : List Message := []
  readerToTopic : Nat → Option Bytes := fun _ => none
  schemaReaderToTopic : Nat → Option Bytes := fun _ => none
  nextArrival : Nat := 0
  arrivals : Nat → Arrival Schema := fun _ => .waiting
  delivered : List (Delivery Schema Callback) := []

/-- `Impl`, and what it is configured with. -/
structure Impl (Schema Callback : Type) where
  topics : Bytes → Option (TopicState Schema Callback) := fun _ => none
  client : Client Schema Callback := {}

/-- The schema library, with the way back from IPC bytes; a schema that cannot be read is
no schema. -/
structure Codec extends SchemaLib where
  deserializeIpc : Bytes → Option Schema

variable (C : Codec) (Callback : Type) (agent : Agent) (maxPayloadBytes : Nat)

/-- A computation on one topic's state, with the session. -/
abbrev TopicAct (α : Type) :=
  Act (TopicState C.Schema Callback × Client C.Schema Callback) PubSubError α

variable {C Callback}

namespace TopicAct

def setTopic (f : TopicState C.Schema Callback → TopicState C.Schema Callback) :
    TopicAct C Callback Unit :=
  Act.modify fun x => (f x.1, x.2)

def setClient (f : Client C.Schema Callback → Client C.Schema Callback) :
    TopicAct C Callback Unit :=
  Act.modify fun x => (x.1, f x.2)

/-- `AllocId`: a `uint16_t` that counts up. -/
def allocId : TopicAct C Callback Nat := do
  let x ← Act.get
  setClient fun c => { c with nextId := c.nextId + 1 }
  pure (x.2.nextId % 2 ^ 16)

/-- One `uxr_buffer_create_*` and what the Agent makes of it. -/
def request (id : ObjectId) : TopicAct C Callback Answer := do
  let x ← Act.get
  let answer := agent x.2.requests
  setClient fun c =>
    { c with
      requests := c.requests + 1
      entities := if answer.created then Function.update c.entities id.raw true else c.entities }
  pure answer

/-- `uxr_buffer_delete_entity`. -/
def deleteEntity (id : ObjectId) : TopicAct C Callback Unit :=
  setClient fun c => { c with entities := Function.update c.entities id.raw false }

def send (message : Message) : TopicAct C Callback Unit :=
  setClient fun c => { c with messages := c.messages ++ [message] }

/-- `WaitForStatus`. -/
def waitForStatus (description : String) (answer : Answer) : TopicAct C Callback Unit :=
  if answer.answered && answer.isOk then pure ()
  else Act.throw ⟨.transportFailure, ascii ("XRCE: failed to create " ++ description ++
    " (status=") ++ decimal answer.status ++ ascii ")"⟩

/-- The statuses, one by one. -/
def checkStatuses (description : String) : Nat → List Answer → TopicAct C Callback Unit
  | _, [] => pure ()
  | i, answer :: answers =>
    if answer.isOk then checkStatuses description (i + 1) answers
    else Act.throw ⟨.transportFailure, ascii ("XRCE: failed to create " ++ description ++
      " (status[") ++ decimal i ++ ascii "]=" ++ decimal answer.status ++ ascii ")"⟩

/-- `WaitForStatuses`. -/
def waitForStatuses (description : String) (answers : List Answer) :
    TopicAct C Callback Unit :=
  if answers.all (·.answered) then checkStatuses description 0 answers
  else Act.throw ⟨.transportFailure, ascii ("XRCE: timeout waiting for " ++ description)⟩

/-- One entity. -/
def create (id : ObjectId) (description : String) : TopicAct C Callback Unit := do
  let answer ← request agent id
  waitForStatus description answer

/-- An entity and its parent, requested together. -/
def createBoth (parent id : ObjectId) (description : String) : TopicAct C Callback Unit := do
  let first ← request agent parent
  let second ← request agent id
  waitForStatuses description [first, second]

/-! ## CreateTopic -/

/-- The participant and the data topic, or the bound of the ones a subscriber created. -/
def ensureTopic (name : Bytes) (options : TopicOptions) (bound base : Nat) :
    TopicAct C Callback Unit := do
  let x ← Act.get
  if x.1.participantId.type = .invalid then
    setTopic fun ts =>
      { ts with
        participantId := ⟨base, .participant⟩
        topicId := ⟨base, .topic⟩
        maxPayloadBytes := bound }
    create agent ⟨base, .participant⟩ "participant"
    create agent ⟨base, .topic⟩ "topic"
  else if x.1.maxPayloadBytes = 0 then
    if options.maxPayloadBytes ≠ 0 ∧ options.maxPayloadBytes ≠ maxPayloadBytes then
      Act.throw ⟨.invalidArgument, ascii "XRCE: '" ++ name ++
        ascii "' already exists on this client at payload bound " ++ decimal maxPayloadBytes ++
        ascii ", created by Subscribe; a different per-topic bound cannot be applied"⟩
    else setTopic fun ts => { ts with maxPayloadBytes := maxPayloadBytes }
  else pure ()

/-- The publisher and the data writer. -/
def createWriter (base : Nat) : TopicAct C Callback Unit := do
  setTopic fun ts =>
    { ts with publisherId := ⟨base, .publisher⟩, writerId := ⟨base, .datawriter⟩ }
  createBoth agent ⟨base, .publisher⟩ ⟨base, .datawriter⟩ "publisher+writer"

theorem boundKey_noZero : (0 : UInt8) ∉ kSchemaPayloadBoundKey := by decide

/-- The one attachment of an announcement. -/
def boundAttachment (bound : Nat) : Attachments where
  entries := [(kSchemaPayloadBoundKey, leBytes 4 bound)]
  ascending := List.pairwise_singleton _ _
  noZero := by
    intro e he
    rw [List.mem_singleton] at he
    subst he
    exact boundKey_noZero

/-- The sample on the `__schema` channel: the IPC bytes as the row, the bound as the one
attachment, behind the length of a CDR sequence. -/
def announcement (ipc : Bytes) (bound : Nat) : Bytes :=
  let envelope := serializeEnvelope ⟨ipc, boundAttachment bound⟩
  leBytes 4 envelope.length ++ envelope

/-- The companion `__schema` topic, where no subscriber has created it. -/
def ensureSchemaTopic (base : Nat) : TopicAct C Callback Unit := do
  let x ← Act.get
  if x.1.schemaTopicId.type = .invalid then
    setTopic fun ts => { ts with schemaTopicId := ⟨base, .topic⟩ }
    create agent ⟨base, .topic⟩ "schema topic"

/-- The one sample on the `__schema` channel. -/
def writeSchema (schema : C.Schema) : TopicAct C Callback Unit := do
  let ipc ← Act.lift ((C.serializeIpc schema).mapError fun text => ⟨.internal, text⟩)
  let x ← Act.get
  send (.data x.1.schemaWriterId (announcement ipc x.1.maxPayloadBytes))

/-- The `__schema` channel and the announcement on it; none without a schema. -/
def announce : Option C.Schema → TopicAct C Callback Unit
  | none => pure ()
  | some schema => do
    setTopic fun ts => { ts with schema := some schema }
    let base ← allocId
    setTopic fun ts =>
      { ts with schemaPublisherId := ⟨base, .publisher⟩, schemaWriterId := ⟨base, .datawriter⟩ }
    ensureSchemaTopic agent base
    createBoth agent ⟨base, .publisher⟩ ⟨base, .datawriter⟩ "schema publisher+writer"
    writeSchema schema

/-- `CreateTopicWithOptions`, under the lock. -/
def declareTopic (name : Bytes) (schema : Option C.Schema) (options : TopicOptions)
    (bound : Nat) (incoming : DeclaredSchema) : TopicAct C Callback Unit := do
  let x ← Act.get
  if x.1.isPublisher then
    if incoming.conflictsWith x.1.declared then
      Act.throw ⟨.schemaConflict,
        ascii "XRCE: topic already declared with a conflicting schema: " ++ name⟩
    else if options.maxPayloadBytes ≠ 0 ∧ options.maxPayloadBytes ≠ x.1.maxPayloadBytes then
      Act.throw ⟨.invalidArgument, ascii "XRCE: '" ++ name ++
        ascii "' is already declared at payload bound " ++ decimal x.1.maxPayloadBytes⟩
    else pure ()
  else do
    let base ← allocId
    ensureTopic agent maxPayloadBytes name options bound base
    createWriter agent base
    announce agent schema
    setTopic fun ts => { ts with declared := incoming, isPublisher := true }

/-! ## Subscribe -/

/-- Dropping a resolver ends its arrival. -/
def dropResolver : TopicAct C Callback Unit := do
  let x ← Act.get
  match x.1.schemaResolver with
  | some arrival =>
    setClient fun c => { c with arrivals := Function.update c.arrivals arrival .ended }
    setTopic fun ts => { ts with schemaResolver := none }
  | none => pure ()

/-- `SchemaArrival::Create`; the resolver of an earlier arrival is replaced. -/
def createArrival : TopicAct C Callback Unit := do
  dropResolver
  let x ← Act.get
  setTopic fun ts =>
    { ts with schemaArrival := some x.2.nextArrival, schemaResolver := some x.2.nextArrival }
  setClient fun c => { c with nextArrival := c.nextArrival + 1 }

/-- The participant and the data topic of a topic no publisher has created. -/
def ensureParticipant : TopicAct C Callback Unit := do
  let x ← Act.get
  if x.1.participantId.type = .invalid then
    let base ← allocId
    setTopic fun ts =>
      { ts with participantId := ⟨base, .participant⟩, topicId := ⟨base, .topic⟩ }
    create agent ⟨base, .participant⟩ "subscriber participant"
    create agent ⟨base, .topic⟩ "subscriber topic"

/-- The schema is known, or its reader is there, or it is created now. -/
def awaitSchema (name : Bytes) : TopicAct C Callback Unit := do
  let x ← Act.get
  match x.1.schema with
  | some schema =>
    setTopic fun ts => { ts with sharedSchema := some schema }
    match x.1.schemaResolver with
    | some arrival =>
      setClient fun c =>
        { c with arrivals := Function.update c.arrivals arrival (.resolved (some schema)) }
      setTopic fun ts => { ts with schemaResolver := none }
    | none => pure ()
  | none =>
    if x.1.schemaReaderId.type = .invalid then
      let base ← allocId
      setTopic fun ts =>
        { ts with
          schemaTopicId := ⟨base, .topic⟩
          schemaSubscriberId := ⟨base, .subscriber⟩
          schemaReaderId := ⟨base, .datareader⟩ }
      create agent ⟨base, .topic⟩ "schema topic (sub)"
      createBoth agent ⟨base, .subscriber⟩ ⟨base, .datareader⟩ "schema subscriber+reader"
      setClient fun c =>
        { c with schemaReaderToTopic := Function.update c.schemaReaderToTopic base (some name) }
      send (.requestData ⟨base, .datareader⟩)
    else pure ()

/-- The subscriber and the data reader, unless there is a subscriber id already. -/
def ensureReader : TopicAct C Callback Unit := do
  let x ← Act.get
  if x.1.subscriberId.type = .invalid then
    let base ← allocId
    setTopic fun ts =>
      { ts with subscriberId := ⟨base, .subscriber⟩, readerId := ⟨base, .datareader⟩ }
    createBoth agent ⟨base, .subscriber⟩ ⟨base, .datareader⟩ "data subscriber+reader"

/-- The end of `Subscribe`: the callback is in place and data is requested. -/
def openChannel (name : Bytes) (callback : Callback) : TopicAct C Callback Unit := do
  setTopic fun ts => { ts with channel := some callback, hasReader := true }
  let x ← Act.get
  setClient fun c =>
    { c with readerToTopic := Function.update c.readerToTopic x.1.readerId.id (some name) }
  send (.requestData x.1.readerId)

/-- `Subscribe`, under the lock. -/
def subscribeTopic (name : Bytes) (callback : Callback) : TopicAct C Callback Unit := do
  let x ← Act.get
  if x.1.hasReader then
    Act.throw ⟨.invalidArgument, ascii "XRCE: already subscribed to: " ++ name⟩
  else do
    createArrival
    ensureParticipant agent
    awaitSchema agent name
    ensureReader agent
    openChannel name callback

/-! ## Unsubscribe -/

/-- The companion `__schema` reader. -/
def closeSchemaReader : TopicAct C Callback Unit := do
  let x ← Act.get
  if x.1.schemaReaderId.type ≠ .invalid then
    send (.cancelData x.1.schemaReaderId)
    deleteEntity x.1.schemaReaderId
    setClient fun c =>
      { c with
        schemaReaderToTopic := Function.update c.schemaReaderToTopic x.1.schemaReaderId.id none }
    setTopic fun ts => { ts with schemaReaderId := { ts.schemaReaderId with type := .invalid } }

def closeSchemaSubscriber : TopicAct C Callback Unit := do
  let x ← Act.get
  if x.1.schemaSubscriberId.type ≠ .invalid then
    deleteEntity x.1.schemaSubscriberId
    setTopic fun ts =>
      { ts with schemaSubscriberId := { ts.schemaSubscriberId with type := .invalid } }

/-- The companion topic, unless a publisher's writer is attached to it. -/
def closeSchemaTopic : TopicAct C Callback Unit := do
  let x ← Act.get
  if x.1.isPublisher = false ∧ x.1.schemaTopicId.type ≠ .invalid then
    deleteEntity x.1.schemaTopicId
    setTopic fun ts => { ts with schemaTopicId := { ts.schemaTopicId with type := .invalid } }

/-- The data reader goes; the ids of the subscriber and of the reader stay. -/
def closeReader : TopicAct C Callback Unit := do
  let x ← Act.get
  if x.1.hasReader then
    send (.cancelData x.1.readerId)
    deleteEntity x.1.readerId
    setClient fun c =>
      { c with readerToTopic := Function.update c.readerToTopic x.1.readerId.id none }
    setTopic fun ts => { ts with hasReader := false, channel := none, pending := [] }

/-- `Unsubscribe`, under the lock. -/
def unsubscribeTopic : TopicAct C Callback Unit := do
  dropResolver
  closeSchemaReader
  closeSchemaSubscriber
  closeSchemaTopic
  closeReader

end TopicAct

/-! ## The provider's calls -/

namespace Impl

/-- A computation on `topics[name]`. -/
def onTopicState {α : Type} (name : Bytes) (m : TopicAct C Callback α) :
    Act (Impl C.Schema Callback) PubSubError α := fun s =>
  match m ((s.topics name).getD {}, s.client) with
  | (r, ts, c) => (r, { topics := Function.update s.topics name (some ts), client := c })

/-- The document of this client has no profiles. -/
def requireNoProfile (options : TopicOptions) : Except PubSubError Unit :=
  if options.profile = "" then .ok ()
  else .error ⟨.notSupported, ascii "XRCE: the document has no profiles"⟩

def requireBound (bound : Nat) : Except PubSubError Unit :=
  if isPayloadBound bound then .ok ()
  else .error ⟨.invalidArgument, ascii "XRCE: max_payload_bytes " ++ decimal bound ++
    ascii (" is not a bound a Fletcher DDS type can carry; it must be a multiple of 4 " ++
      "between ") ++ decimal kMinPayloadBytes ++ ascii " and " ++ decimal kMaxPayloadBytes⟩

/-- This topic's own bound, or the provider's. -/
def boundOf (options : TopicOptions) : Nat :=
  if options.maxPayloadBytes ≠ 0 then options.maxPayloadBytes else maxPayloadBytes

/-- `CreateTopicWithOptions`. -/
def createTopicWithOptions (inside : Bool) (segments : List Bytes) (schema : Option C.Schema)
    (options : TopicOptions) : Act (Impl C.Schema Callback) PubSubError Unit := do
  Act.lift (refuseIfInside inside "CreateTopicWithOptions")
  Act.lift (requireNoProfile options)
  let name ← Act.lift (topicName segments)
  Act.lift (requireBound (boundOf maxPayloadBytes options))
  onTopicState name (TopicAct.declareTopic agent maxPayloadBytes name schema options
    (boundOf maxPayloadBytes options) (C.toSchemaLib.encode schema))

/-- `Subscribe`. -/
def subscribe (inside : Bool) (segments : List Bytes) (callback : Callback) :
    Act (Impl C.Schema Callback) PubSubError Unit := do
  Act.lift (refuseIfInside inside "Subscribe")
  let name ← Act.lift (topicName segments)
  onTopicState name (TopicAct.subscribeTopic agent name callback)

/-- `Unsubscribe`: a name that is not in the map is ignored. -/
def unsubscribe (inside : Bool) (segments : List Bytes) :
    Act (Impl C.Schema Callback) PubSubError Unit := do
  Act.lift (refuseIfInside inside "Unsubscribe")
  let name ← Act.lift (topicName segments)
  let s ← Act.get
  match s.topics name with
  | some _ => onTopicState name TopicAct.unsubscribeTopic
  | none => pure ()

/-! ## Samples -/

/-- The schema of an announcement, where there is a usable one. -/
def announcedSchema (body : Bytes) : Option C.Schema := do
  let envelope ← (deserializeEnvelopeFrom true body).toOption
  let bound ← envelope.attachments.find kSchemaPayloadBoundKey
  if bound.length = 4 ∧ isPayloadBound (ofLe bound) = true then C.deserializeIpc envelope.row
  else none

/-- A sample on a companion reader: the first usable one answers the arrival, and what was
buffered goes out. -/
def onSchema (name : Bytes) (ts : TopicState C.Schema Callback) (body : Bytes)
    (s : Impl C.Schema Callback) : Impl C.Schema Callback :=
  match ts.schemaResolver with
  | none => s
  | some arrival =>
    match announcedSchema body with
    | none => s
    | some schema =>
      { topics := Function.update s.topics name (some
          { ts with
            schema := some schema
            sharedSchema := some schema
            schemaResolver := none
            pending := [] })
        client :=
          { s.client with
            arrivals := Function.update s.client.arrivals arrival (.resolved (some schema))
            delivered := s.client.delivered ++
              match ts.channel with
              | some callback => ts.pending.map fun envelope => ⟨callback, some schema, envelope⟩
              | none => [] } }

/-- A sample on a data reader: delivered, or buffered while there is no schema. -/
def onData (name : Bytes) (ts : TopicState C.Schema Callback) (body : Bytes)
    (s : Impl C.Schema Callback) : Impl C.Schema Callback :=
  match ts.channel, deserializeEnvelopeFrom true body with
  | some callback, .ok envelope =>
    match ts.sharedSchema with
    | none =>
      { s with
        topics := Function.update s.topics name
          (some { ts with pending := ts.pending ++ [envelope] }) }
    | some schema =>
      { s with
        client :=
          { s.client with
            delivered := s.client.delivered ++ [⟨callback, some schema, envelope⟩] } }
  | _, _ => s

/-- `OnTopic`: the payload is a CDR sequence; what does not fit its length is dropped. -/
def onTopic (objectId : Nat) (payload : Bytes) (s : Impl C.Schema Callback) :
    Impl C.Schema Callback :=
  let body := (payload.drop 4).take (ofLe (payload.take 4))
  if payload.length < 4 ∨ payload.length < 4 + ofLe (payload.take 4) then s
  else
    match s.client.schemaReaderToTopic objectId with
    | some name =>
      match s.topics name with
      | some ts => s.onSchema name ts body
      | none => s
    | none =>
      match s.client.readerToTopic objectId with
      | some name =>
        match s.topics name with
        | some ts => s.onData name ts body
        | none => s
      | none => s

end Impl

/-! ## Runs -/

/-- What can happen to the provider: a call on some thread, or a sample. -/
inductive Event (C : Codec) (Callback : Type) where
  | createTopic (inside : Bool) (segments : List Bytes) (schema : Option C.Schema)
    (options : TopicOptions)
  | subscribe (inside : Bool) (segments : List Bytes) (callback : Callback)
  | unsubscribe (inside : Bool) (segments : List Bytes)
  | sample (objectId : Nat) (payload : Bytes)

namespace Impl

/-- One event: what the call returns or throws, and the state after it. -/
def step : Event C Callback → Act (Impl C.Schema Callback) PubSubError Unit
  | .createTopic inside segments schema options =>
    createTopicWithOptions agent maxPayloadBytes inside segments schema options
  | .subscribe inside segments callback => subscribe agent inside segments callback
  | .unsubscribe inside segments => unsubscribe inside segments
  | .sample objectId payload => fun s => (.ok (), s.onTopic objectId payload)

/-- The state after a history of events. -/
def play : Impl C.Schema Callback → List (Event C Callback) → Impl C.Schema Callback
  | s, [] => s
  | s, e :: es => play (step agent maxPayloadBytes e s).2 es

end Impl

/-! ## The simplest environment -/

/-- A library with one schema. -/
def oneSchema : Codec where
  Schema := Unit
  serializeIpc _ := .ok [1]
  serializeIpc_ne_nil := ne_nil_of_singleton
  deserializeIpc _ := some ()

/-- An Agent that confirms every request. -/
def willing : Agent := fun _ => ⟨true, 0, true⟩

theorem willing_confirms : willing.Confirms := fun _ => ⟨rfl, rfl, rfl⟩

end Fletcher.Xrce
