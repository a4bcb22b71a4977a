import Fletcher.PubSub.Seam

/-!
# The subscriber

`Subscriber` fans a provider's deliveries out to callbacks, on as many threads as
the provider likes, while other threads and the callbacks themselves subscribe
and cancel. This is the machine: a shared state, one call stack per thread, and
one step of one thread at a time.

Three choices make it a model of the source rather than a sketch of it.

* **A thread is a stack.** A handler runs on top of the fan-out frame that
  invoked it, and whatever it calls runs on top of the handler. The thread-local
  delivery stack is read off the call stack (`deliveryStack`), so "inside a
  delivery on this Subscriber" is a property of the frames below a call.
* **A critical section is one step.** `mu` is never held across a gate, a wait or
  a provider call, so nothing another thread can see happens inside one.
* **A gate is named by its subscription.** Every entry is created with a gate of
  its own and ids are never reused, so gate and id identify each other.

The provider is not modelled: a delivery may start on any thread that is running
user or provider code, for any topic, at any time, and a provider call returns or
throws as it pleases.
-/

namespace Fletcher.PubSub

abbrev ThreadId := Nat
abbrev SubId := Nat

/-- What the Subscriber keeps per topic. -/
structure TopicState where
  /-- The current fan-out snapshot, in subscription order. -/
  entries : List SubId
  providerSubscribed : Bool
  providerSubscribeInProgress : Bool
  options : TopicOptions

/-- The identity a delivery frame is marked with. -/
inductive Token where
  | subscriber
  | provider
  | other (n : Nat)
  deriving DecidableEq, Repr

/-- Where a `RetireAndDrain` stands. -/
inductive DrainPc where
  /-- About to store `retired`. -/
  | retire
  /-- About to ask whether this thread is inside a delivery. -/
  | ask
  /-- Waiting for the gate. -/
  | barrier

/-- Where an `Unsubscribe` stands. `ours` is the topic of the subscription when
this call is the one that took it out of the live map. -/
inductive CancelPc (Topic : Type) where
  | lookup
  | drain (ours : Option Topic) (pc : DrainPc)
  | finish (key : Topic) (deferred : Bool)
  | inProvider

/-- Where a `Subscribe` stands, once its entry is in the fan-out. -/
inductive SubscribePc where
  /-- Waiting for another first Subscribe on the topic. -/
  | waiting
  | inProvider
  /-- Rolling back: draining the entry it withdrew. -/
  | drain (pc : DrainPc)
  /-- Rolling back: about to release the retirement. -/
  | release

/-- Where a fan-out stands between the entries of its snapshot. -/
inductive FanoutPhase where
  | between
  /-- Holding the gate, `retired` not yet read. -/
  | locked (id : SubId)
  /-- Holding the gate, inside the callback. -/
  | running (id : SubId)

inductive Frame (Topic Sample : Type) where
  /-- A delivery frame of another component: the provider's, or another Subscriber's. -/
  | scope (token : Token)
  /-- This Subscriber's fan-out of a sample over the rest of a snapshot. -/
  | fanout (sample : Sample) (rest : List SubId) (phase : FanoutPhase)
  | unsubscribe (id : SubId) (pc : CancelPc Topic)
  | subscribe (topic : Topic) (options : TopicOptions) (id : SubId) (pc : SubscribePc)
  /-- Deferred releases being run at delivery depth zero. `drained` is set once the
  first one's gate has been waited for. -/
  | sweep (due : List SubId) (drained : Bool)

variable {Topic Sample : Type}

namespace Frame

/-- The token a frame puts on the thread's delivery stack. -/
def token : Frame Topic Sample → Option Token
  | .scope tok => some tok
  | .fanout _ _ _ => some .subscriber
  | _ => none

/-- The subscription whose gate the frame holds. -/
def holds : Frame Topic Sample → Option SubId
  | .fanout _ _ (.locked id) | .fanout _ _ (.running id) => some id
  | _ => none

/-- The subscription whose callback the frame is inside. -/
def runs : Frame Topic Sample → Option SubId
  | .fanout _ _ (.running id) => some id
  | _ => none

end Frame

/-- `g_delivery_stack`, innermost first. -/
def deliveryStack (stack : List (Frame Topic Sample)) : List Token := stack.filterMap Frame.token

/-- `InsideDeliveryOn(token)`. -/
def insideDeliveryOn (tok : Token) (stack : List (Frame Topic Sample)) : Bool :=
  (deliveryStack stack).contains tok

/-- The shared state and every thread's own. -/
structure State (Topic Sample : Type) where
  nextId : SubId
  /-- `subscription_topic`: the live subscriptions. -/
  subscriptionTopic : SubId → Option Topic
  topics : Topic → TopicState
  /-- Ids withdrawn from the fan-out whose drain has not completed. -/
  retirements : SubId → Bool
  retired : SubId → Bool
  /-- Who holds a subscription's gate. -/
  gate : SubId → Option ThreadId
  stack : ThreadId → List (Frame Topic Sample)
  /-- `g_deferred_at_depth_zero`: releases this thread owes. -/
  deferred : ThreadId → List SubId
  absorbed : Nat

/-- What threads can do. `advance` is the next step of the code on top of the
stack; everything else is a choice of user code, a handler or the provider. -/
inductive Action (Topic Sample : Type) where
  | deliver (topic : Topic) (sample : Sample)
  | enterScope (token : Token)
  | exitScope
  | subscribe (topic : Topic) (options : TopicOptions)
  | unsubscribe (id : SubId)
  | handlerReturns (threw : Bool)
  | providerReturns (ok : Bool)
  | advance

/-- Code outside this class is on top of the stack and may call into it. -/
def callable : List (Frame Topic Sample) → Bool
  | [] => true
  | .scope _ :: _ => true
  | .fanout _ _ (.running _) :: _ => true
  | .subscribe _ _ _ .inProvider :: _ => true
  | .unsubscribe _ .inProvider :: _ => true
  | _ => false

/-- What `EnsureProviderSubscription` does next. -/
inductive Ensure where
  | joined
  | refused
  | wait
  | enter

/-- The decision on entry: join, refuse, or go for the provider. The re-entrancy
door stands before the wait. -/
def ensureEntry (ts : TopicState) (options : TopicOptions) (insideProvider : Bool) : Ensure :=
  if ts.providerSubscribed then
    if optionsConflict options ts.options then .refused else .joined
  else if insideProvider then .refused
  else if ts.providerSubscribeInProgress then .wait
  else .enter

/-- The decision after the wait. -/
def ensureWoken (ts : TopicState) (options : TopicOptions) : Ensure :=
  if ts.providerSubscribed then
    if optionsConflict options ts.options then .refused else .joined
  else .enter

namespace State

/-- Nothing subscribed, nobody running. -/
def init : State Topic Sample where
  nextId := 1
  subscriptionTopic _ := none
  topics _ := ⟨[], false, false, ⟨"", 0⟩⟩
  retirements _ := false
  retired _ := false
  gate _ := none
  stack _ := []
  deferred _ := []
  absorbed := 0

variable (s : State Topic Sample)

def setStack (t : ThreadId) (st : List (Frame Topic Sample)) :
    State Topic Sample := { s with stack := Function.update s.stack t st }

def setRetired (id : SubId) : State Topic Sample :=
  { s with retired := Function.update s.retired id true }

/-- `Retirements::Publish`. -/
def publish (id : SubId) : State Topic Sample :=
  { s with retirements := Function.update s.retirements id true }

/-- `Retirements::Release`. -/
def release (id : SubId) : State Topic Sample :=
  { s with retirements := Function.update s.retirements id false }

def setGate (id : SubId) (holder : Option ThreadId) :
    State Topic Sample := { s with gate := Function.update s.gate id holder }

def setDeferred (t : ThreadId) (ids : List SubId) :
    State Topic Sample := { s with deferred := Function.update s.deferred t ids }

/-- The scope's destructor: pop the frame, and sweep if it was the outermost one. -/
def endScope (t : ThreadId) (below : List (Frame Topic Sample)) :
    State Topic Sample :=
  if deliveryStack below = [] ∧ s.deferred t ≠ [] then
    (s.setStack t (.sweep (s.deferred t) false :: below)).setDeferred t []
  else s.setStack t below

variable [DecidableEq Topic]

def setTopic (topic : Topic) (ts : TopicState) : State Topic Sample :=
  { s with topics := Function.update s.topics topic ts }

/-- Take an id out of the live map and out of its topic's fan-out. If its entry
was there, its retirement is published in the same critical section. -/
def withdraw (id : SubId) (topic : Topic) : State Topic Sample :=
  let ts := s.topics topic
  { s with
    subscriptionTopic := Function.update s.subscriptionTopic id none
    topics := Function.update s.topics topic { ts with entries := ts.entries.filter (· != id) }
    retirements := if id ∈ ts.entries then (s.publish id).retirements else s.retirements }

/-- Roll a Subscribe back: withdraw the entry and, if it was still there, drain it. -/
def rollback (t : ThreadId) (topic : Topic) (options : TopicOptions)
    (id : SubId) (below : List (Frame Topic Sample)) : State Topic Sample :=
  if id ∈ (s.topics topic).entries then
    (s.withdraw id topic).setStack t (.subscribe topic options id (.drain .retire) :: below)
  else (s.withdraw id topic).setStack t below

/-- Act on what `EnsureProviderSubscription` decided. -/
def applyEnsure (t : ThreadId) (topic : Topic) (options : TopicOptions)
    (id : SubId) (below : List (Frame Topic Sample)) : Ensure → State Topic Sample
  | .joined => s.setStack t below
  | .refused => s.rollback t topic options id below
  | .wait => s.setStack t (.subscribe topic options id .waiting :: below)
  | .enter =>
    (s.setTopic topic { s.topics topic with providerSubscribeInProgress := true }).setStack t
      (.subscribe topic options id .inProvider :: below)

/-- Put the next id into the live map and into its topic's fan-out. -/
def insertEntry (topic : Topic) : State Topic Sample :=
  let ts := s.topics topic
  { s with
    nextId := s.nextId + 1
    subscriptionTopic := Function.update s.subscriptionTopic s.nextId (some topic)
    topics := Function.update s.topics topic { ts with entries := ts.entries ++ [s.nextId] } }

/-- `Subscribe` up to the point where it blocks, enters the provider or is done. -/
def callSubscribe (t : ThreadId) (topic : Topic) (options : TopicOptions) : State Topic Sample :=
  (s.insertEntry topic).applyEnsure t topic options s.nextId (s.stack t)
    (ensureEntry (s.topics topic) options (insideDeliveryOn .provider (s.stack t)))

/-- The provider's Subscribe returned, or threw. -/
def providerSubscribed (s : State Topic Sample) (t : ThreadId) (topic : Topic)
    (options : TopicOptions) (id : SubId) (below : List (Frame Topic Sample)) (ok : Bool) :
    State Topic Sample :=
  let ts := s.topics topic
  if ok then
    (s.setTopic topic { ts with
      providerSubscribed := true
      providerSubscribeInProgress := false
      options := options }).setStack t below
  else
    (s.setTopic topic { ts with providerSubscribeInProgress := false }).rollback
      t topic options id below

/-- The first critical section of `Unsubscribe`. -/
def cancelLookup (t : ThreadId) (id : SubId)
    (below : List (Frame Topic Sample)) : State Topic Sample :=
  match s.subscriptionTopic id with
  | some topic =>
    if id ∈ (s.topics topic).entries then
      (s.withdraw id topic).setStack t
        (.unsubscribe id (.drain (some topic) .retire) :: below)
    else (s.withdraw id topic).setStack t (.unsubscribe id (.finish topic false) :: below)
  | none =>
    if s.retirements id then
      -- Being cancelled on another thread: wait for the same drain.
      s.setStack t (.unsubscribe id (.drain none .retire) :: below)
    else s.setStack t below

/-- The second critical section of `Unsubscribe`: release the retirement, and tear
the provider subscription down if the topic has nobody left. -/
def cancelFinish (t : ThreadId) (id : SubId) (key : Topic)
    (isDeferred : Bool) (below : List (Frame Topic Sample)) : State Topic Sample :=
  let s := if isDeferred then s else s.release id
  let ts := s.topics key
  if ts.entries = [] ∧ ts.providerSubscribed = true ∧ insideDeliveryOn .provider below = false then
    (s.setTopic key { ts with providerSubscribed := false }).setStack t
      (.unsubscribe id .inProvider :: below)
  else s.setStack t below

end State

/-- What one step of a `RetireAndDrain` leads to. -/
inductive DrainResult where
  | more (pc : DrainPc)
  /-- Done; `deferred` says whether the release is owed at depth zero. -/
  | done (deferred : Bool)

/-- One step of `RetireAndDrain(id, gate, owns)` over the frames `below` the call. -/
def drainStep (s : State Topic Sample) (t : ThreadId) (below : List (Frame Topic Sample))
    (id : SubId) (owns : Bool) : DrainPc → Option (State Topic Sample × DrainResult)
  | .retire => some (s.setRetired id, .more .ask)
  | .ask =>
    if insideDeliveryOn .subscriber below then
      if owns then some (s.setDeferred t (s.deferred t ++ [id]), .done true)
      else some (s, .done false)
    else some (s, .more .barrier)
  | .barrier => if s.gate id = none then some (s, .done false) else none

section

variable [DecidableEq Topic]

/-- The next step of a fan-out. -/
def advanceFanout (s : State Topic Sample) (t : ThreadId) (sample : Sample) (rest : List SubId)
    (below : List (Frame Topic Sample)) : FanoutPhase → Option (State Topic Sample)
  | .between =>
    match rest with
    | [] => some (s.endScope t below)
    | id :: rest =>
      if s.gate id = none then
        some ((s.setGate id (some t)).setStack t (.fanout sample rest (.locked id) :: below))
      else none
  | .locked id =>
    -- Read at invocation, not at snapshot time.
    if s.retired id then
      some ((s.setGate id none).setStack t (.fanout sample rest .between :: below))
    else some (s.setStack t (.fanout sample rest (.running id) :: below))
  | .running _ => none

/-- The next step of an `Unsubscribe`. -/
def advanceCancel (s : State Topic Sample) (t : ThreadId) (id : SubId)
    (below : List (Frame Topic Sample)) : CancelPc Topic → Option (State Topic Sample)
  | .lookup => some (s.cancelLookup t id below)
  | .drain ours pc =>
    (drainStep s t below id ours.isSome pc).map fun (s, r) =>
      match r, ours with
      | .more pc, ours => s.setStack t (.unsubscribe id (.drain ours pc) :: below)
      | .done isDeferred, some key =>
        s.setStack t (.unsubscribe id (.finish key isDeferred) :: below)
      | .done _, none => s.setStack t below
  | .finish key isDeferred => some (s.cancelFinish t id key isDeferred below)
  | .inProvider => none

/-- The next step of a `Subscribe`. -/
def advanceSubscribe (s : State Topic Sample) (t : ThreadId) (topic : Topic)
    (options : TopicOptions) (id : SubId) (below : List (Frame Topic Sample)) :
    SubscribePc → Option (State Topic Sample)
  | .waiting =>
    if (s.topics topic).providerSubscribeInProgress then none
    else some (s.applyEnsure t topic options id below (ensureWoken (s.topics topic) options))
  | .inProvider => none
  | .drain pc =>
    (drainStep s t below id true pc).map fun (s, r) =>
      match r with
      | .more pc => s.setStack t (.subscribe topic options id (.drain pc) :: below)
      | .done true => s.setStack t below
      | .done false => s.setStack t (.subscribe topic options id .release :: below)
  | .release => some ((s.release id).setStack t below)

/-- The next step of a sweep: wait for a gate, then release. -/
def advanceSweep (s : State Topic Sample) (t : ThreadId) (below : List (Frame Topic Sample)) :
    List SubId → Bool → Option (State Topic Sample)
  | [], _ => some (s.setStack t below)
  | id :: due, false =>
    if s.gate id = none then some (s.setStack t (.sweep (id :: due) true :: below)) else none
  | id :: due, true => some ((s.release id).setStack t (.sweep due false :: below))

def advance (s : State Topic Sample) (t : ThreadId) : Option (State Topic Sample) :=
  match s.stack t with
  | .fanout sample rest phase :: below => advanceFanout s t sample rest below phase
  | .unsubscribe id pc :: below => advanceCancel s t id below pc
  | .subscribe topic options id pc :: below => advanceSubscribe s t topic options id below pc
  | .sweep due drained :: below => advanceSweep s t below due drained
  | _ => none

/-- One step of thread `t`. -/
def step (s : State Topic Sample) (t : ThreadId) : Action Topic Sample →
    Option (State Topic Sample)
  | .deliver topic sample =>
    if callable (s.stack t) then
      some (s.setStack t (.fanout sample (s.topics topic).entries .between :: s.stack t))
    else none
  | .enterScope tok =>
    if callable (s.stack t) && tok != .subscriber then
      some (s.setStack t (.scope tok :: s.stack t))
    else none
  | .exitScope =>
    match s.stack t with
    | .scope _ :: below => some (s.endScope t below)
    | _ => none
  | .subscribe topic options =>
    if callable (s.stack t) then some (s.callSubscribe t topic options) else none
  | .unsubscribe id =>
    if callable (s.stack t) then
      some (s.setStack t (.unsubscribe id .lookup :: s.stack t))
    else none
  | .handlerReturns threw =>
    match s.stack t with
    | .fanout sample rest (.running id) :: below =>
      let s := if threw then { s with absorbed := s.absorbed + 1 } else s
      some ((s.setGate id none).setStack t (.fanout sample rest .between :: below))
    | _ => none
  | .providerReturns ok =>
    match s.stack t with
    | .subscribe topic options id .inProvider :: below =>
      some (s.providerSubscribed t topic options id below ok)
    | .unsubscribe _ .inProvider :: below => some (s.setStack t below)
    | _ => none
  | .advance => advance s t

/-- The interleaving machine: a label is a thread and what it does. -/
def machine (s : State Topic Sample) (label : ThreadId × Action Topic Sample) :
    Option (State Topic Sample) := step s label.1 label.2

end

end Fletcher.PubSub
