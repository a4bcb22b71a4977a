import Fletcher.Lib.Act
import Fletcher.PubSub.Seam

/-!
# The in-process provider

The reference provider: a map of topics under one mutex. Every call takes the mutex once, so
a call is one step; here is the one that declares a topic. `SchemaCarriage` is the one option
the provider's document has: a schema-carrying instance announces schemas the way a transport
does, the other tells a subscription whatever is declared when it starts.
-/

namespace Fletcher.PubSub

open Lib Utf8 Fletcher.Core

inductive SchemaCarriage where
  | asDeclared
  | carried
  deriving DecidableEq, Repr

namespace InProcess

variable (L : SchemaLib) (Callback : Type)

/-- `Impl::TopicState`. -/
structure TopicState where
  channel : Option Callback := none
  /-- What the live subscription was told. -/
  subscriptionSchema : Option L.Schema := none
  resolver : Option Nat := none
  schema : Option L.Schema := none
  /-- Absent for a topic that a subscriber or a publish created. -/
  declared : Option DeclaredSchema := none

structure Impl where
  carriage : SchemaCarriage
  topics : Bytes → Option (TopicState L Callback) := fun _ => none
  arrivals : Nat → Arrival L.Schema := fun _ => .waiting

variable {L Callback}

namespace Impl

/-- `topics[key]`. -/
def topic (s : Impl L Callback) (key : Bytes) : TopicState L Callback := (s.topics key).getD {}

def setTopic (s : Impl L Callback) (key : Bytes) (slot : TopicState L Callback) :
    Impl L Callback :=
  { s with topics := Function.update s.topics key (some slot) }

def settle (s : Impl L Callback) (resolver : Option Nat) (outcome : Arrival L.Schema) :
    Impl L Callback :=
  match resolver with
  | some arrival => { s with arrivals := Function.update s.arrivals arrival outcome }
  | none => s

/-- A schema-carrying instance declares no topic without a schema. -/
def requireSchema (s : Impl L Callback) (schema : Option L.Schema) (key : Bytes) :
    Except PubSubError Unit :=
  if s.carriage = .carried ∧ schema.isNone = true then
    .error ⟨.invalidArgument, ascii ("InProcessPubSubProvider: a schema-carrying instance " ++
      "cannot declare a topic with no schema: ") ++ key⟩
  else .ok ()

/-- `CreateTopic`, under the lock. -/
def declareTopic (key : Bytes) (schema : Option L.Schema) (incoming : DeclaredSchema) :
    Act (Impl L Callback) PubSubError Unit := do
  let s ← Act.get
  let slot := s.topic key
  match slot.declared with
  | some declared =>
    if incoming.conflictsWith declared then
      Act.throw ⟨.schemaConflict, ascii ("InProcessPubSubProvider: topic already declared " ++
        "with a conflicting schema: ") ++ key⟩
    else pure ()
  | none =>
    if s.carriage = .carried then
      Act.modify fun s =>
        (s.setTopic key { slot with
          declared := some incoming
          schema := schema
          subscriptionSchema := schema
          resolver := none }).settle slot.resolver (.resolved schema)
    else
      Act.modify fun s =>
        s.setTopic key { slot with declared := some incoming, schema := schema }

/-- `CreateTopic`. -/
def createTopic (inside : Bool) (segments : List Bytes) (schema : Option L.Schema) :
    Act (Impl L Callback) PubSubError Unit := do
  Act.lift (refuseIfInside inside "CreateTopic")
  let key ← Act.lift (topicName segments)
  let s ← Act.get
  Act.lift (s.requireSchema schema key)
  declareTopic key schema (L.encode schema)

end Impl

end InProcess

end Fletcher.PubSub
