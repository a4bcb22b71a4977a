import Fletcher.Lib.Transition
import Fletcher.PubSub.Seam

/-!
# Gateway sessions

Any number of WebSocket sessions over one `Publisher` and one `Subscriber`. A frame is
handled in one go: the actions are the bodies of the handlers' `try` blocks, `handle`
puts the `catch` around them, and `next` is one event of one session.

The JSON library and the provider underneath are parameters. Of the library it is said
what the session sees: a value or a text, and that `dump` throws on a string that is
not UTF-8. The provider may refuse any call with any text.
-/

namespace Fletcher.Gateway

open Lib Utf8 Fletcher.Core PubSub

/-! ## JSON -/

/-- A JSON value. Strings are the bytes the library keeps. -/
inductive Json where
  | null
  | boolean (b : Bool)
  | integer (n : Int)
  | float
  | string (s : Bytes)
  | array (items : List Json)
  | object (members : List (Bytes × Json))

namespace Json

def find? (j : Json) (key : String) : Option Json :=
  match j with
  | .object members => members.lookup (ascii key)
  | _ => none

mutual

/-- Every string in the value, keys included, is UTF-8. -/
def wellFormed : Json → Bool
  | .string s => valid s
  | .array items => allWellFormed items
  | .object members => membersWellFormed members
  | _ => true

def allWellFormed : List Json → Bool
  | [] => true
  | j :: js => j.wellFormed && allWellFormed js

def membersWellFormed : List (Bytes × Json) → Bool
  | [] => true
  | (key, j) :: ms => valid key && j.wellFormed && membersWellFormed ms

end

end Json

/-- The JSON library: parsing, rendering, and the texts its exceptions carry. -/
structure JsonLib where
  parse : Bytes → Except Text Json
  /-- `at(key)` on a value without the key. -/
  atText : Json → String → Text
  /-- `get<std::string>()` on a value that is none. -/
  getText : Json → Text
  /-- `dump()` of a value that holds a string which is not UTF-8. -/
  dumpText : Json → Text
  render : Json → Bytes

namespace JsonLib

variable (L : JsonLib)

def atKey (j : Json) (key : String) : Except Text Json :=
  match j.find? key with
  | some v => .ok v
  | none => .error (L.atText j key)

def getString (j : Json) : Except Text Bytes :=
  match j with
  | .string s => .ok s
  | _ => .error (L.getText j)

/-- `j.at(key).get<std::string>()`. -/
def stringAt (j : Json) (key : String) : Except Text Bytes := do
  let v ← L.atKey j key
  L.getString v

def dump (j : Json) : Except Text Bytes :=
  if j.wellFormed then .ok (L.render j) else .error (L.dumpText j)

end JsonLib

/-! ## Parsing -/

/-- `std::isspace` in the C locale. -/
def isSpace (c : UInt8) : Bool := c = 32 || (9 ≤ c && c ≤ 13)

def isDigit (c : UInt8) : Bool := 48 ≤ c && c ≤ 57

def digitsValue (ds : Bytes) : Nat := ds.foldl (fun n d => n * 10 + (d.toNat - 48)) 0

/-- Whether a numeral starts with a minus, and what follows the sign. -/
def signOf : Bytes → Bool × Bytes
  | 45 :: rest => (true, rest)
  | 43 :: rest => (false, rest)
  | s => (false, s)

/-- `std::stoull`: blanks, a sign, digits, and whatever follows them is ignored. A
negative number wraps around. -/
def stoull (s : Bytes) : Except Text Nat :=
  let numeral := signOf (s.dropWhile isSpace)
  let ds := numeral.2.takeWhile isDigit
  if ds = [] then .error (ascii "stoull")
  else if 2 ^ 64 ≤ digitsValue ds then .error (ascii "stoull")
  else .ok (if numeral.1 then (2 ^ 64 - digitsValue ds) % 2 ^ 64 else digitsValue ds)

/-- `SplitTopic`: every piece is kept, the empty ones too; an empty name has none. -/
def splitTopic (topic : Bytes) : List Bytes :=
  if topic = [] then [] else topic.splitOn separator

/-- `ParsePublishFrame`: the topic and the envelope. -/
def parsePublishFrame (data : Bytes) : Except Text (Bytes × Bytes) :=
  if data.length < 2 then .error (ascii "publish: frame too short for TOPIC_LEN")
  else
    let topicLen := ofLe (data.take 2)
    if data.length < 2 + topicLen then .error (ascii "publish: truncated topic")
    else .ok ((data.drop 2).take topicLen, data.drop (2 + topicLen))

/-- The text of an exception of the core library. -/
def errorText : Error → Text
  | .invalidArgument what | .outOfRange what | .runtimeError what | .overflowError what
  | .pubSubError what => ascii what
  | .undefined | .diverges => []

/-! ## Arrow schemas -/

/-- The `NANOARROW_TYPE_*` values that `NanoarrowTypeToWireType` tells apart. -/
inductive ArrowType where
  | bool | int8 | int16 | int32 | int64 | uint8 | uint16 | uint32 | uint64
  | float | double | string | binary | date32 | date64 | timestamp | time32 | time64
  | duration | fixedSizeBinary | halfFloat | decimal128 | decimal256
  | largeString | largeBinary | stringView | binaryView
  | intervalMonths | intervalDayTime | intervalMonthDayNano
  | struct | list | largeList | fixedSizeList | map | sparseUnion | denseUnion
  | other
  deriving DecidableEq, Repr

/-- An `ArrowSchema` with its format string already viewed: `fixedSize` is what the view
holds for a fixed-size list, `metadata` the decoded pairs. -/
inductive ArrowSchema where
  | mk (name : Option Bytes) (nullable : Bool) (type : ArrowType)
    (metadata : Option (List (Bytes × Bytes))) (fixedSize : Int) (children : List ArrowSchema)

/-- `static_cast<int>` of a JSON integer. -/
def toInt32 (n : Int) : Int := n.bmod (2 ^ 32)

/-- `WireTypeToNanoarrowType`: an `int` printed with `std::hex` prints its 32 bits. -/
def wireTypeToNanoarrowType (wt : Int) : Except Text ArrowType :=
  match wt with
  | 0x01 => .ok .bool
  | 0x02 => .ok .int8
  | 0x03 => .ok .int16
  | 0x04 => .ok .int32
  | 0x05 => .ok .int64
  | 0x06 => .ok .uint8
  | 0x07 => .ok .uint16
  | 0x08 => .ok .uint32
  | 0x09 => .ok .uint64
  | 0x0A => .ok .float
  | 0x0B => .ok .double
  | 0x0C => .ok .string
  | 0x0D => .ok .binary
  | 0x18 => .ok .largeString
  | 0x19 => .ok .largeBinary
  | _ => .error (ascii "create_topic: wireType 0x" ++
    hexadecimal (wt % 2 ^ 32).toNat ++
    ascii " not yet supported in publisher-supplied schemas (only scalar types are accepted today)")

/-- What `ArrowSchemaInit`, `ArrowSchemaSetName` and `ArrowSchemaSetType` leave of one
child: nullable, without metadata, and with the name up to its first zero byte. -/
def scalarField (name : Bytes) (type : ArrowType) : ArrowSchema :=
  .mk (some (name.takeWhile (· != 0))) true type none 0 []

def childOfJson (index : Nat) (f : Json) : Except Text ArrowSchema :=
  match f.find? "name" with
  | some (.string name) =>
    match f.find? "wireType" with
    | some (.integer n) => do
      let type ← wireTypeToNanoarrowType (toInt32 n)
      .ok (scalarField name type)
    | _ => .error (ascii "create_topic: field at index " ++ decimal index ++
      ascii " is missing an integer 'wireType'")
  | _ => .error (ascii "create_topic: field at index " ++ decimal index ++
    ascii " is missing a string 'name'")

def childrenOfJson : Nat → List Json → Except Text (List ArrowSchema)
  | _, [] => .ok []
  | index, f :: fs => do
    let child ← childOfJson index f
    let children ← childrenOfJson (index + 1) fs
    .ok (child :: children)

/-- `BuildArrowSchemaFromJson`. -/
def buildArrowSchemaFromJson (j : Json) : Except Text ArrowSchema :=
  match j.find? "fields" with
  | some (.array fields) => do
    let children ← childrenOfJson 0 fields
    .ok (.mk none true .struct none 0 children)
  | _ => .error (ascii "create_topic: schema must contain a 'fields' array")

/-! ## Publisher and subscriber -/

/-- The provider both sit on, and the schema library. A call gives the provider's next
state, and either returns or throws. -/
structure Provider where
  State : Type
  Schema : Type
  /-- The provider's form of a schema that was built from JSON. -/
  ofBuilt : ArrowSchema → Schema
  /-- `SerializeSchemaIpc`, where it does not throw. -/
  encodeIpc : Schema → Option Bytes
  createTopic : State → Bytes → Option Schema → State × Except Text Unit
  publish : State → Bytes → Envelope → State × Except Text Unit
  subscribe : State → Bytes → State × Except Text Unit
  unsubscribe : State → Bytes → State × Except Text Unit
  /-- The schema a subscription's arrival holds already. -/
  arrived : State → Bytes → Option Schema
  /-- The IPC bytes and the JSON description of a schema for a client. -/
  describe : Schema → Except Text (Bytes × Json)

variable (L : JsonLib) (P : Provider)

/-- What the sessions share. -/
structure Shared where
  provider : P.State
  /-- `Publisher::Impl::topics`. -/
  topics : List (Bytes × DeclaredSchema)
  /-- `Subscriber::Impl::next_id`. -/
  nextId : Nat
  /-- `Subscriber::Impl::subscription_topic`. -/
  subscriptionTopic : List (Nat × Bytes)
  /-- The topics with `provider_subscribed` set. -/
  providerSubscribed : List Bytes

variable {P}

namespace Shared

variable (sh : Shared P)

/-- A call that returns. -/
def returns {α : Type} (a : α) : Shared P × Except Text α := (sh, .ok a)

def throws {α : Type} (text : Text) : Shared P × Except Text α := (sh, .error text)

/-- `Publisher::CreateTopic` with the default options. -/
def createTopic (segments : List Bytes) (schema : Option P.Schema) :
    Shared P × Except Text Unit :=
  match joinSegments segments with
  | .error text => sh.throws text
  | .ok key =>
    let incoming := DeclaredSchema.encode P.encodeIpc schema
    match sh.topics.lookup key with
    | some stored =>
      if incoming.conflictsWith stored then
        sh.throws (ascii "Publisher: topic already declared with a conflicting schema: " ++ key)
      else sh.returns ()
    | none =>
      match P.createTopic sh.provider key schema with
      | (provider, .ok ()) =>
        ({ sh with provider, topics := (key, incoming) :: sh.topics }, .ok ())
      | (provider, .error text) => ({ sh with provider }, .error text)

/-- `Publisher::Publish`: every provider joins the segments before anything else. -/
def publish (segments : List Bytes) (envelope : Envelope) :
    Shared P × Except Text Unit :=
  match joinSegments segments with
  | .error text => sh.throws text
  | .ok key =>
    let (provider, published) := P.publish sh.provider key envelope
    ({ sh with provider }, published)

/-- Where the id stands in the id table. -/
def topicOf (id : Nat) : Option Bytes := sh.subscriptionTopic.lookup id

/-- `Subscriber::Subscribe`: the id, and the topic's name. A failed provider call takes
the new id out again. -/
def subscribe (segments : List Bytes) : Shared P × Except Text (Nat × Bytes) :=
  match joinSegments segments with
  | .error text => sh.throws text
  | .ok key =>
    let id := sh.nextId
    let entered : Shared P :=
      { sh with nextId := id + 1, subscriptionTopic := (id, key) :: sh.subscriptionTopic }
    if sh.providerSubscribed.contains key then entered.returns (id, key)
    else
      match P.subscribe sh.provider key with
      | (provider, .ok ()) =>
        ({ entered with provider, providerSubscribed := key :: sh.providerSubscribed },
          .ok (id, key))
      | (provider, .error text) => ({ sh with provider, nextId := id + 1 }, .error text)

/-- The table without an id. -/
def without (id : Nat) : List (Nat × Bytes) :=
  sh.subscriptionTopic.filter (fun p => p.1 != id)

/-- The id is the last of its topic, and the provider is subscribed to it. -/
def closesTopic (id : Nat) (key : Bytes) : Bool :=
  !(sh.without id).any (fun p => p.2 == key) && sh.providerSubscribed.contains key

/-- `Subscriber::Unsubscribe`: an id that is not in the table is ignored, whoever asks.
The id is gone whether or not the provider's call throws. -/
def unsubscribe (id : Nat) : Shared P × Except Text Unit :=
  match sh.topicOf id with
  | none => sh.returns ()
  | some key =>
    let left : Shared P := { sh with subscriptionTopic := sh.without id }
    if sh.closesTopic id key then
      let (provider, unsubscribed) := P.unsubscribe sh.provider key
      ({ left with provider, providerSubscribed := sh.providerSubscribed.erase key },
        unsubscribed)
    else left.returns ()

end Shared

/-! ## Sessions -/

/-- A frame on its way out. -/
structure OutgoingFrame where
  data : Bytes
  isText : Bool
  deriving DecidableEq, Repr

structure Session where
  /-- The subscriptions this session has opened: id and topic. -/
  subscriptions : List (Nat × Bytes)
  writeQueue : List OutgoingFrame
  writing : Bool
  /-- Everything that was ever put into the write queue, in order. -/
  queued : List OutgoingFrame
  /-- The read loop is running. -/
  reading : Bool

namespace Session

def fresh : Session := ⟨[], [], false, [], true⟩

/-- `SendText` and `SendBinary`. -/
def send (se : Session) (frame : OutgoingFrame) : Session :=
  { se with
    writeQueue := se.writeQueue ++ [frame]
    queued := se.queued ++ [frame]
    writing := true }

/-- The completion of a write that succeeded. -/
def written (se : Session) : Session :=
  match se.writeQueue with
  | [] => se
  | _ :: rest => { se with writeQueue := rest, writing := !rest.isEmpty }

/-- The replies of the session: its text frames. -/
def replies (se : Session) : List Bytes := (se.queued.filter (·.isText)).map (·.data)

end Session

/-- What an action leaves behind: the reply to send, or the exception it threw. -/
structure Outcome (P : Provider) where
  shared : Shared P
  session : Session
  result : Except Text Json

inductive Frame where
  | text (data : Bytes)
  | binary (data : Bytes)
  deriving DecidableEq, Repr

def reply (type : String) (rest : List (Bytes × Json)) : Json :=
  .object ((ascii "type", .string (ascii type)) :: rest)

/-- The reply `SendError` sends. -/
def errorReply (text : Text) : Json := reply "error" [(ascii "message", .string text)]

/-! ## Actions -/

def base64Alphabet : Bytes :=
  ascii "ABCDEFGHIJKLMNOPQRSTUVWXYZabcdefghijklmnopqrstuvwxyz0123456789+/"

def base64Char (n : Nat) : UInt8 := base64Alphabet.getD (n % 64) 0

/-- `Base64Encode`, three bytes at a time. -/
def base64Encode : Bytes → Bytes
  | [] => []
  | [a] =>
    let b := a.toNat <<< 16
    [base64Char (b >>> 18), base64Char (b >>> 12), 61, 61]
  | [a, a'] =>
    let b := a.toNat <<< 16 ||| a'.toNat <<< 8
    [base64Char (b >>> 18), base64Char (b >>> 12), base64Char (b >>> 6), 61]
  | a :: a' :: a'' :: rest =>
    let b := a.toNat <<< 16 ||| a'.toNat <<< 8 ||| a''.toNat
    base64Char (b >>> 18) :: base64Char (b >>> 12) :: base64Char (b >>> 6) :: base64Char b ::
      base64Encode rest

/-- The schema a `create_topic` message carries, if it carries one. -/
def schemaOfMessage (msg : Json) : Except Text (Option P.Schema) :=
  match msg.find? "schema" with
  | none => .ok none
  | some j => (buildArrowSchemaFromJson j).map fun schema => some (P.ofBuilt schema)

def onCreateTopic (sh : Shared P) (se : Session) (msg : Json) : Outcome P :=
  match L.stringAt msg "topic" with
  | .error text => ⟨sh, se, .error text⟩
  | .ok topic =>
    match schemaOfMessage (P := P) msg with
    | .error text => ⟨sh, se, .error text⟩
    | .ok schema =>
      let (sh, created) := sh.createTopic (splitTopic topic) schema
      ⟨sh, se, created.map fun _ => reply "topic_created" []⟩

/-- The rest of the `subscribed` reply: the schema, when one has arrived. -/
def schemaMembers (schema : Option P.Schema) : Except Text (List (Bytes × Json)) :=
  match schema with
  | none => .ok []
  | some schema =>
    (P.describe schema).map fun (ipc, json) =>
      [(ascii "schemaIpc", .string (base64Encode ipc)), (ascii "schema", json)]

def onSubscribe (sh : Shared P) (se : Session) (topic : Bytes) : Outcome P :=
  match sh.subscribe (splitTopic topic) with
  | (sh, .error text) => ⟨sh, se, .error text⟩
  | (sh, .ok (id, key)) =>
    -- The session owns the subscription before the reply is built.
    let se := { se with subscriptions := (id, topic) :: se.subscriptions }
    ⟨sh, se, (schemaMembers (P.arrived sh.provider key)).map fun members =>
      reply "subscribed" ((ascii "subId", .string (decimal id)) ::
        (ascii "topic", .string topic) :: members)⟩

def onUnsubscribe (sh : Shared P) (se : Session) (id : Nat) : Outcome P :=
  match sh.unsubscribe id with
  | (sh, .error text) => ⟨sh, se, .error text⟩
  | (sh, .ok ()) =>
    ⟨sh, { se with subscriptions := se.subscriptions.filter (fun p => p.1 != id) },
      .ok (reply "unsubscribed" [])⟩

def onPublish (sh : Shared P) (se : Session) (data : Bytes) : Outcome P :=
  match parsePublishFrame data with
  | .error text => ⟨sh, se, .error text⟩
  | .ok (topic, envelopeData) =>
    match deserializeEnvelope envelopeData with
    | .error e => ⟨sh, se, .error (errorText e)⟩
    | .ok envelope =>
      let (sh, published) := sh.publish (splitTopic topic) envelope
      ⟨sh, se, published.map fun _ => reply "published" []⟩

def onListTopics (sh : Shared P) (se : Session) : Outcome P :=
  ⟨sh, se, .ok (reply "topics_list"
    [(ascii "topics", .array (sh.topics.map fun p => .string p.1))])⟩

/-- What a control message asks for. -/
inductive Request where
  | createTopic (msg : Json)
  | subscribe (topic : Bytes)
  | unsubscribe (id : Nat)
  | listTopics
  | unknown (action : Bytes)

/-- The reading of a text frame. -/
def parseRequest (data : Bytes) : Except Text Request := do
  let j ← L.parse data
  let action ← L.stringAt j "action"
  if action = ascii "create_topic" then .ok (.createTopic j)
  else if action = ascii "subscribe" then do
    let topic ← L.stringAt j "topic"
    .ok (.subscribe topic)
  else if action = ascii "unsubscribe" then do
    let subId ← L.stringAt j "subId"
    let id ← stoull subId
    .ok (.unsubscribe id)
  else if action = ascii "list_topics" then .ok .listTopics
  else .ok (.unknown action)

def perform (sh : Shared P) (se : Session) : Request → Outcome P
  | .createTopic msg => onCreateTopic L sh se msg
  | .subscribe topic => onSubscribe sh se topic
  | .unsubscribe id => onUnsubscribe sh se id
  | .listTopics => onListTopics sh se
  | .unknown action => ⟨sh, se, .ok (errorReply (ascii "unknown action: " ++ action))⟩

/-- The `try` blocks of `HandleTextFrame` and `HandleBinaryFrame`, up to the reply. -/
def act (sh : Shared P) (se : Session) : Frame → Outcome P
  | .text data =>
    match parseRequest L data with
    | .error text => ⟨sh, se, .error text⟩
    | .ok request => perform L sh se request
  | .binary data => onPublish sh se data

/-- The bytes the `try` block queues, or the exception it ends with. -/
def attempt (o : Outcome P) : Except Text Bytes := o.result.bind L.dump

/-- The `catch` block: the text of the exception goes into an error reply, and what that
throws escapes. -/
def answer (o : Outcome P) : Except Text Bytes :=
  match attempt L o with
  | .ok bytes => .ok bytes
  | .error text => L.dump (errorReply text)

/-! ## The gateway -/

/-- The sessions, by number, over what they share. An exception that escapes a handler
ends the process. -/
structure World (P : Provider) where
  shared : Shared P
  sessions : Nat → Session
  crashed : Option Text

inductive Event where
  | frame (f : Frame)
  /-- A sample for one of the session's subscriptions, posted by a provider thread. -/
  | deliver (data : Bytes)
  /-- A write has completed. -/
  | written
  /-- The read has failed: the connection is gone. -/
  | closed
  deriving DecidableEq, Repr

namespace World

/-- The gateway before its first connection. -/
def start (provider : P.State) : World P :=
  ⟨⟨provider, [], 1, [], []⟩, fun _ => Session.fresh, none⟩

def put (w : World P) (i : Nat) (se : Session) : World P :=
  { w with sessions := Function.update w.sessions i se }

end World

/-- `HandleTextFrame` and `HandleBinaryFrame`. -/
def handle (w : World P) (i : Nat) (f : Frame) : World P :=
  let o := act L w.shared (w.sessions i) f
  match answer L o with
  | .ok bytes => { w with shared := o.shared }.put i (o.session.send ⟨bytes, true⟩)
  | .error text => { w with shared := o.shared, crashed := some text }.put i o.session

/-- `UnsubscribeAll`, whatever the calls throw. -/
def unsubscribeAll (sh : Shared P) : List (Nat × Bytes) → Shared P
  | [] => sh
  | (id, _) :: rest => unsubscribeAll (sh.unsubscribe id).1 rest

/-- The read loop ends: the session's subscriptions are cancelled. -/
def hangUp (w : World P) (i : Nat) : World P :=
  let se := w.sessions i
  { w with shared := unsubscribeAll w.shared se.subscriptions }.put i
    { se with subscriptions := [], reading := false }

/-- One event of one session. -/
def next (w : World P) : Nat × Event → Option (World P)
  | (i, e) =>
    let se := w.sessions i
    if w.crashed.isSome then none
    else
      match e with
      | .frame f => if se.reading then some (handle L w i f) else none
      | .deliver data => some (w.put i (se.send ⟨data, false⟩))
      | .written => if se.writeQueue.isEmpty then none else some (w.put i se.written)
      | .closed => if se.reading then some (hangUp w i) else none

/-! ## What one event does -/

variable {L} {w w' : World P} {i k : Nat}

/-- What an event can do, guards included. -/
inductive Did (L : JsonLib) (w : World P) (i : Nat) : Event → World P → Prop where
  | frame (f : Frame) (reading : (w.sessions i).reading = true) :
    Did L w i (.frame f) (handle L w i f)
  | deliver (data : Bytes) : Did L w i (.deliver data) (w.put i ((w.sessions i).send ⟨data, false⟩))
  | written : Did L w i .written (w.put i (w.sessions i).written)
  | closed (reading : (w.sessions i).reading = true) : Did L w i .closed (hangUp w i)

theorem next_eq_some {e : Event} (h : next L w (i, e) = some w') :
    w.crashed = none ∧ Did L w i e w' := by
  unfold next at h
  dsimp only at h
  split at h
  · cases h
  · next hc =>
    refine ⟨by simpa using hc, ?_⟩
    cases e with
    | frame f =>
      dsimp only at h
      by_cases hr : (w.sessions i).reading = true
      · rw [if_pos hr] at h
        cases h
        exact .frame f hr
      · rw [if_neg hr] at h
        cases h
    | deliver data =>
      cases h
      exact .deliver data
    | written =>
      by_cases hq : (w.sessions i).writeQueue.isEmpty = true
      · rw [if_pos hq] at h
        cases h
      · rw [if_neg hq] at h
        cases h
        exact .written
    | closed =>
      by_cases hr : (w.sessions i).reading = true
      · rw [if_pos hr] at h
        cases h
        exact .closed hr
      · rw [if_neg hr] at h
        cases h

theorem handle_of_ok {f : Frame} {bytes : Bytes}
    (h : answer L (act L w.shared (w.sessions i) f) = .ok bytes) :
    handle L w i f =
      { w with shared := (act L w.shared (w.sessions i) f).shared }.put i
        ((act L w.shared (w.sessions i) f).session.send ⟨bytes, true⟩) := by
  rw [handle, h]

theorem handle_of_error {f : Frame} {text : Text}
    (h : answer L (act L w.shared (w.sessions i) f) = .error text) :
    handle L w i f =
      { w with shared := (act L w.shared (w.sessions i) f).shared, crashed := some text }.put i
        (act L w.shared (w.sessions i) f).session := by
  rw [handle, h]

@[simp] theorem put_shared (se : Session) : (w.put i se).shared = w.shared := rfl

@[simp] theorem put_crashed (se : Session) : (w.put i se).crashed = w.crashed := rfl

@[simp] theorem put_self (se : Session) : (w.put i se).sessions i = se := by
  simp [World.put]

theorem put_other (se : Session) (h : k ≠ i) : (w.put i se).sessions k = w.sessions k := by
  simp [World.put, h]

/-- An action changes nothing of its session but the subscriptions. -/
def KeepsSession (se : Session) (o : Outcome P) : Prop :=
  ∃ subscriptions, o.session = { se with subscriptions }

theorem keepsSession_perform (sh : Shared P) (se : Session) (request : Request) :
    KeepsSession se (perform L sh se request) := by
  have hsame : ∀ sh' result, KeepsSession (P := P) se ⟨sh', se, result⟩ := fun _ _ => ⟨_, rfl⟩
  cases request with
  | createTopic _ =>
    rw [perform, onCreateTopic]
    split
    · exact hsame _ _
    · split
      · exact hsame _ _
      · exact hsame _ _
  | subscribe _ =>
    rw [perform, onSubscribe]
    split
    · exact hsame _ _
    · exact ⟨_, rfl⟩
  | unsubscribe _ =>
    rw [perform, onUnsubscribe]
    split
    · exact hsame _ _
    · exact ⟨_, rfl⟩
  | listTopics => exact hsame _ _
  | unknown _ => exact hsame _ _

theorem keepsSession_act (sh : Shared P) (se : Session) (f : Frame) :
    KeepsSession se (act L sh se f) := by
  cases f with
  | text data =>
    rw [act]
    split
    · exact ⟨_, rfl⟩
    · exact keepsSession_perform sh se _
  | binary data =>
    rw [act, onPublish]
    split
    · exact ⟨_, rfl⟩
    · split
      · exact ⟨_, rfl⟩
      · exact ⟨_, rfl⟩

end Fletcher.Gateway
