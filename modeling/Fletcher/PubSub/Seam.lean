import Fletcher.Core.Envelope
import Fletcher.PubSub.Segments

/-!
# The seam

What `Publisher`, `Subscriber` and the providers under them share: the errors, the doors
every call goes through, payload bounds, deliveries and schema arrivals, and the one
comparison that decides whether declaring a topic again is idempotent or a conflict. The
Fast DDS provider compares on its own.
-/

namespace Fletcher.PubSub

open Lib Utf8 Fletcher.Core

/-- `PubSubStatus`, without the two outcomes that are never thrown and without `kOk`. -/
inductive PubSubStatus where
  | invalidArgument | schemaConflict | topicNotDeclared | payloadTooLarge | transportFailure
  | notSupported | internal | reentrantCall
  deriving DecidableEq, Repr

structure PubSubError where
  status : PubSubStatus
  what : Text
  deriving DecidableEq, Repr

structure TopicOptions where
  profile : String
  maxPayloadBytes : Nat
  deriving DecidableEq, Repr

/-- A later caller may repeat or omit an option the topic was opened with, never
change one. -/
def optionsConflict (options stored : TopicOptions) : Bool :=
  (options.profile != "" && options.profile != stored.profile) ||
    (options.maxPayloadBytes != 0 && options.maxPayloadBytes != stored.maxPayloadBytes)

/-- `RefuseIfInsideDeliveryOn`; `inside` says whether this thread is inside a delivery of
the same provider. -/
def refuseIfInside (inside : Bool) (method : String) : Except PubSubError Unit :=
  if inside then
    .error ⟨.reentrantCall, ascii ("kReentrantCall: " ++ method ++
      " was called from inside a delivery callback on this same provider " ++
      "instance, on this same thread, and cannot be served there. No " ++
      "PubSubProvider method may be re-entered from a delivery callback: " ++
      "copy what you need and act after the callback returns.")⟩
  else .ok ()

/-- `JoinSegments` at the seam. -/
def topicName (segments : List Bytes) : Except PubSubError Bytes :=
  (joinSegments segments).mapError fun text => ⟨.invalidArgument, text⟩

theorem topicName_ok_iff {segments : List Bytes} {name : Bytes} :
    topicName segments = .ok name ↔ joinSegments segments = .ok name := by
  unfold topicName
  cases joinSegments segments with
  | ok n => simp [Except.mapError]
  | error _ => simp [Except.mapError]

/-! ## Payload bounds -/

def kMinPayloadBytes : Nat := 4

/-- The largest multiple of four that leaves room for the framing in a `uint32_t`. -/
def kMaxPayloadBytes : Nat := (2 ^ 32 - 1 - 8) / 4 * 4

def isPayloadBound (bytes : Nat) : Bool :=
  kMinPayloadBytes ≤ bytes && bytes ≤ kMaxPayloadBytes && bytes % 4 == 0

/-- The key of the one attachment of a schema announcement. -/
def kSchemaPayloadBoundKey : Bytes := ascii "max_payload_bytes"

/-! ## Deliveries and arrivals -/

/-- One call of a subscriber's callback. -/
structure Delivery (Schema Callback : Type) where
  callback : Callback
  schema : Option Schema
  envelope : Envelope

/-- What a subscription's `SchemaArrival` reports. -/
inductive Arrival (Schema : Type) where
  | waiting
  | resolved (schema : Option Schema)
  | ended

/-! ## Declared schemas -/

/-- Schemas and their IPC form. `SerializeSchemaIpc` may throw, and nothing it returns is
empty: a message has at least its frame. -/
structure SchemaLib where
  Schema : Type
  serializeIpc : Schema → Except Text Bytes
  serializeIpc_ne_nil : ∀ schema ipc, serializeIpc schema = .ok ipc → ipc ≠ []

/-- For a library with one schema. -/
theorem ne_nil_of_singleton (_ : Unit) (ipc : Bytes)
    (h : (.ok [1] : Except Text Bytes) = .ok ipc) : ipc ≠ [] := by
  cases h
  exact List.cons_ne_nil _ _

/-- `DeclaredSchema`. -/
structure DeclaredSchema where
  schemaIpc : Bytes
  encodable : Bool
  deriving DecidableEq, Repr

namespace DeclaredSchema

def encode {Schema : Type} (encodeIpc : Schema → Option Bytes) (schema : Option Schema) :
    DeclaredSchema :=
  match schema with
  | none => ⟨[], true⟩
  | some schema =>
    match encodeIpc schema with
    | some ipc => ⟨ipc, true⟩
    | none => ⟨[], false⟩

def conflictsWith (d existing : DeclaredSchema) : Bool :=
  d.encodable && existing.encodable && d.schemaIpc != existing.schemaIpc

theorem conflictsWith_eq_false_iff {d existing : DeclaredSchema} (hd : d.encodable = true)
    (hexi : existing.encodable = true) :
    d.conflictsWith existing = false ↔ d = existing := by
  obtain ⟨_, encodable⟩ := d
  obtain ⟨_, _⟩ := existing
  dsimp only at hd hexi
  subst hd
  subst hexi
  simp [conflictsWith]

end DeclaredSchema

namespace SchemaLib

variable (L : SchemaLib)

/-- `DeclaredSchema::Encode`. -/
def encode (schema : Option L.Schema) : DeclaredSchema :=
  DeclaredSchema.encode (fun schema => (L.serializeIpc schema).toOption) schema

end SchemaLib

end Fletcher.PubSub
