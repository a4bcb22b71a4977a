import Fletcher.Xrce.Provider
import Mathlib.Logic.Relation

/-!
# What the calls write

A call changes the state of one topic and the session, in a few writes, some of them behind
requests to the Agent. `Write` says what they can do to the readers, to the routes of samples
and to the arrivals of schemas, and `Stepped` that an event does nothing else. What holds after
any history is then proved write by write.
-/

namespace Fletcher.Xrce

open Lib Fletcher.Core PubSub List TopicAct Function

variable {C : Codec} {Callback : Type} {agent : Agent} {maxPayloadBytes : Nat}

/-- The state of one topic, with the session. -/
abbrev Local (C : Codec) (Callback : Type) :=
  TopicState C.Schema Callback × Client C.Schema Callback

/-! ## Writes -/

/-- What requests change in the session. -/
structure Asking where
  requests : Nat
  entities : Nat × Kind → Bool

namespace Client

variable (c : Client C.Schema Callback)

/-- The next id is handed out. -/
def allocated : Client C.Schema Callback := { c with nextId := c.nextId + 1 }

/-- What an entity is called that gets the next id. -/
def object (kind : Kind) : ObjectId := ⟨c.nextId % 2 ^ 16, kind⟩

def asked (a : Asking) : Client C.Schema Callback :=
  { c with requests := a.requests, entities := a.entities }

end Client

/-- Requests were made, all of them under the number `base`. -/
def Asked (base : Nat) (c : Client C.Schema Callback) (a : Asking) : Prop :=
  ∀ raw, a.entities raw = true → c.entities raw = true ∨ raw.1 = base % 2 ^ 12

/-- The reader of the topic is as it was. -/
structure SameReader (ts₀ ts : TopicState C.Schema Callback) : Prop where
  subscriberId : ts.subscriberId = ts₀.subscriberId := by rfl
  readerId : ts.readerId = ts₀.readerId := by rfl
  hasReader : ts.hasReader = ts₀.hasReader := by rfl

/-- So are the reader of its `__schema` channel and its resolver. -/
structure SameReaders (ts₀ ts : TopicState C.Schema Callback) : Prop extends
    SameReader ts₀ ts where
  schemaReaderId : ts.schemaReaderId = ts₀.schemaReaderId := by rfl
  schemaResolver : ts.schemaResolver = ts₀.schemaResolver := by rfl

/-- The routes and the arrivals are as they were, and the Agent has nothing new. -/
structure SameRoutes (c₀ c : Client C.Schema Callback) : Prop where
  nextId : c.nextId = c₀.nextId := by rfl
  entities : ∀ raw, c.entities raw = true → c₀.entities raw = true := by exact fun _ h => h
  readerToTopic : c.readerToTopic = c₀.readerToTopic := by rfl
  schemaReaderToTopic : c.schemaReaderToTopic = c₀.schemaReaderToTopic := by rfl
  nextArrival : c.nextArrival = c₀.nextArrival := by rfl
  arrivals : c.arrivals = c₀.arrivals := by rfl

/-- One write of the provider on the topic `name`. -/
inductive Write (name : Bytes) : Local C Callback → Local C Callback → Prop where
  /-- An id is handed out, and entities other than readers are asked for under it. -/
  | request {ts ts' c a} (same : SameReaders ts ts') (asked : Asked c.nextId c.allocated a) :
    Write name (ts, c) (ts', c.allocated.asked a)
  | quiet {ts ts' c c'} (same : SameReaders ts ts') (routes : SameRoutes c c') :
    Write name (ts, c) (ts', c')
  /-- The arrival of a subscription ends, with a schema or without. -/
  | answer {ts c} (arrival : Nat) (outcome : Arrival C.Schema)
    (waiting : ts.schemaResolver = some arrival) :
    Write name (ts, c)
      ({ ts with schemaResolver := none },
        { c with arrivals := update c.arrivals arrival outcome })
  | issue {ts c} :
    Write name (ts, c)
      ({ ts with schemaArrival := some c.nextArrival, schemaResolver := some c.nextArrival },
        { c with nextArrival := c.nextArrival + 1 })
  /-- The companion reader. -/
  | schemaReader {ts c a} (asked : Asked c.nextId c.allocated a) :
    Write name (ts, c)
      ({ ts with
          schemaTopicId := c.object .topic
          schemaSubscriberId := c.object .subscriber
          schemaReaderId := c.object .datareader }, c.allocated.asked a)
  | schemaRoute {ts c} (set : ts.schemaReaderId.type = .datareader) :
    Write name (ts, c)
      (ts, { c with
        schemaReaderToTopic :=
          update c.schemaReaderToTopic ts.schemaReaderId.id (some name)
        messages := c.messages ++ [.requestData ts.schemaReaderId] })
  | reader {ts c a} (unset : ts.subscriberId.type = .invalid)
    (asked : Asked c.nextId c.allocated a) :
    Write name (ts, c)
      ({ ts with
          subscriberId := c.object .subscriber
          readerId := c.object .datareader }, c.allocated.asked a)
  | channel {ts c} (callback : Callback) (set : ts.subscriberId.type ≠ .invalid) :
    Write name (ts, c)
      ({ ts with channel := some callback, hasReader := true },
        { c with
          readerToTopic := update c.readerToTopic ts.readerId.id (some name)
          messages := c.messages ++ [.requestData ts.readerId] })
  | closeSchemaReader {ts c} (set : ts.schemaReaderId.type ≠ .invalid) :
    Write name (ts, c)
      ({ ts with schemaReaderId := { ts.schemaReaderId with type := .invalid } },
        { c with
          messages := c.messages ++ [.cancelData ts.schemaReaderId]
          entities := update c.entities ts.schemaReaderId.raw false
          schemaReaderToTopic :=
            update c.schemaReaderToTopic ts.schemaReaderId.id none })
  | closeReader {ts c} :
    Write name (ts, c)
      ({ ts with hasReader := false, channel := none, pending := [] },
        { c with
          messages := c.messages ++ [.cancelData ts.readerId]
          entities := update c.entities ts.readerId.raw false
          readerToTopic := update c.readerToTopic ts.readerId.id none })

def Writes (name : Bytes) : Local C Callback → Local C Callback → Prop :=
  Relation.ReflTransGen (Write name)

section Calls

variable {name : Bytes} {x₀ x x' : Local C Callback} {base : Nat} {id id' : ObjectId}
  {m n : TopicAct C Callback Unit}

/-- The Agent did not confirm a request. -/
structure Failed (agent : Agent) (name : Bytes) (x₀ x : Local C Callback) : Prop where
  unconfirmed : ¬agent.Confirms
  writes : Writes name x₀ x

/-- Nothing that was written is about the topic's own reader. -/
structure Written (name : Bytes) (x₀ x : Local C Callback) : Prop where
  writes : Writes name x₀ x
  reader : SameReader x₀.1 x.1

theorem Written.refl (x : Local C Callback) : Written name x x := ⟨.refl, {}⟩

theorem SameReader.trans {ts₀ ts₁ ts₂ : TopicState C.Schema Callback} (h : SameReader ts₀ ts₁)
    (h' : SameReader ts₁ ts₂) : SameReader ts₀ ts₂ :=
  ⟨h'.subscriberId.trans h.subscriberId, h'.readerId.trans h.readerId,
    h'.hasReader.trans h.hasReader⟩

theorem Written.tail (h : Written name x₀ x) (hw : Write name x x')
    (hsame : SameReader x.1 x'.1 := by exact {}) : Written name x₀ x' :=
  ⟨Relation.ReflTransGen.tail h.writes hw, h.reader.trans hsame⟩

theorem entities_update_false {entities : Nat × Kind → Bool} {gone raw : Nat × Kind}
    (h : update entities gone false raw = true) : entities raw = true := by
  by_cases heq : raw = gone
  · rw [heq, update_self] at h
    cases h
  · rwa [update_of_ne heq] at h

/-! ## Requests -/

namespace TopicAct

variable {α : Type} (x : Local C Callback)

@[simp] theorem setTopic_bind (f : TopicState C.Schema Callback → TopicState C.Schema Callback)
    (g : Unit → TopicAct C Callback α) : (setTopic f >>= g) x = g () (f x.1, x.2) := rfl

@[simp] theorem allocId_bind (g : Nat → TopicAct C Callback α) :
    (allocId >>= g) x = g (x.2.nextId % 2 ^ 16) (x.1, x.2.allocated) := rfl

end TopicAct

theorem Asked.trans {c : Client C.Schema Callback} {a b : Asking} (h : Asked base c a)
    (h' : Asked base (c.asked a) b) : Asked base c b := by
  intro raw hraw
  rcases h' raw hraw with hold | hnew
  · exact h raw hold
  · exact Or.inr hnew

/-- `m` makes requests, under one number, the last of them for `id`, and throws only if one is
not confirmed. -/
def Asks (agent : Agent) (base : Nat) (id : ObjectId) (m : TopicAct C Callback Unit) : Prop :=
  ∀ x : Local C Callback, Act.Ends
    (fun _ y => ∃ a, y = (x.1, x.2.asked a) ∧ Asked base x.2 a ∧
      (agent.Confirms → a.entities id.raw = true))
    (fun _ y => ¬agent.Confirms ∧ ∃ a, y = (x.1, x.2.asked a) ∧ Asked base x.2 a) (m x)

theorem Asks.seq (hm : Asks agent base id m) (hn : Asks agent base id' n) :
    Asks agent base id' (do m; n) := by
  intro x
  refine Act.Ends.bind (hm x) ?_
  intro _ y hy
  obtain ⟨a, rfl, ha, -⟩ := hy
  refine (hn _).weaken ?_ ?_
  · intro _ z hz
    obtain ⟨b, rfl, hb, hlast⟩ := hz
    exact ⟨b, rfl, ha.trans hb, hlast⟩
  · intro _ z hz
    obtain ⟨hag, b, rfl, hb⟩ := hz
    exact ⟨hag, b, rfl, ha.trans hb⟩

/-- What one request leaves. -/
def Client.request (agent : Agent) (id : ObjectId) (c : Client C.Schema Callback) : Asking where
  requests := c.requests + 1
  entities :=
    if (agent c.requests).created then update c.entities id.raw true else c.entities

theorem asked_request (agent : Agent) (base : Nat) (kind : Kind) (c : Client C.Schema Callback) :
    Asked base c (c.request agent ⟨base % 2 ^ 16, kind⟩) := by
  intro raw hraw
  unfold Client.request at hraw
  dsimp only at hraw
  split at hraw
  · by_cases h : raw = ObjectId.raw ⟨base % 2 ^ 16, kind⟩
    · refine Or.inr ?_
      rw [h]
      show base % 2 ^ 16 % 2 ^ 12 = base % 2 ^ 12
      omega
    · rw [update_of_ne h] at hraw
      exact Or.inl hraw
  · exact Or.inl hraw

theorem request_entities (hag : agent.Confirms) (id : ObjectId) (c : Client C.Schema Callback) :
    (c.request agent id).entities id.raw = true := by
  unfold Client.request
  dsimp only
  rw [if_pos (hag _).2.2, update_self]

/-- The answer says that the entity is there. -/
def Answer.Good (answer : Answer) : Prop := (answer.answered && answer.isOk) = true

theorem Agent.Confirms.good (hag : agent.Confirms) (n : Nat) : (agent n).Good :=
  Bool.and_eq_true_iff.mpr ⟨(hag n).1, (hag n).2.1⟩

theorem asks_create {kind : Kind} {description : String} : Asks agent base ⟨base % 2 ^ 16, kind⟩
      (create agent ⟨base % 2 ^ 16, kind⟩ description : TopicAct C Callback Unit) := by
  intro x
  have hasked := asked_request agent base kind x.2
  show Act.Ends _ _ (waitForStatus description (agent x.2.requests)
    (x.1, x.2.asked (x.2.request agent ⟨base % 2 ^ 16, kind⟩)))
  unfold waitForStatus
  split
  · exact ⟨_, rfl, hasked, fun hag => request_entities hag _ _⟩
  · next hbad => exact ⟨fun hag => hbad (hag.good _), _, rfl, hasked⟩

theorem checkStatuses_ends (description : String) (answers : List Answer) (y : Local C Callback) :
    ∀ i, Act.Ends (fun _ z => z = y) (fun _ z => z = y ∧ ∃ a ∈ answers, ¬a.Good)
      (checkStatuses description i answers y) := by
  induction answers with
  | nil => exact fun _ => rfl
  | cons answer answers ih =>
    intro i
    unfold checkStatuses
    split
    · refine (ih (i + 1)).weaken (fun _ _ h => h) fun _ z h => ⟨h.1, ?_⟩
      obtain ⟨a, ha, hbad⟩ := h.2
      exact ⟨a, mem_cons_of_mem _ ha, hbad⟩
    · next hbad =>
      exact ⟨rfl, answer, mem_cons_self, fun hgood => hbad (Bool.and_eq_true_iff.mp hgood).2⟩

theorem waitForStatuses_ends (description : String) (answers : List Answer) (y : Local C Callback) :
    Act.Ends (fun _ z => z = y) (fun _ z => z = y ∧ ∃ a ∈ answers, ¬a.Good)
      (waitForStatuses description answers y) := by
  unfold waitForStatuses
  split
  · exact checkStatuses_ends description answers y 0
  · next hsome =>
    rw [all_eq_true] at hsome
    push Not at hsome
    obtain ⟨a, ha, hbad⟩ := hsome
    exact ⟨rfl, a, ha, fun hgood => hbad (Bool.and_eq_true_iff.mp hgood).1⟩

theorem asks_createBoth {parent kind : Kind} {description : String} :
    Asks agent base ⟨base % 2 ^ 16, kind⟩
      (createBoth agent ⟨base % 2 ^ 16, parent⟩ ⟨base % 2 ^ 16, kind⟩ description :
        TopicAct C Callback Unit) := by
  intro x
  have hasked := (asked_request agent base parent x.2).trans (asked_request agent base kind _)
  refine (waitForStatuses_ends description [agent x.2.requests, agent (x.2.requests + 1)]
    (x.1, x.2.asked (Client.request agent ⟨base % 2 ^ 16, kind⟩
      (x.2.asked (x.2.request agent ⟨base % 2 ^ 16, parent⟩))))).weaken ?_ ?_
  · intro _ z h
    subst h
    exact ⟨_, rfl, hasked, fun hag => request_entities hag _ _⟩
  · intro _ z h
    obtain ⟨rfl, _, hans, hbad⟩ := h
    refine ⟨?_, _, rfl, hasked⟩
    intro hag
    rcases mem_pair.mp hans with h | h
    · exact hbad (h ▸ hag.good _)
    · exact hbad (h ▸ hag.good _)

/-- Requests behind one write. -/
theorem Asks.writes (hm : Asks agent base id m) (h : Writes name x₀ x')
    (hw : ∀ a, Asked base x.2 a → Write name x' (x.1, x.2.asked a)) :
    Act.Ends (fun _ y => Writes name x₀ y ∧ ∃ a, y = (x.1, x.2.asked a) ∧
        (agent.Confirms → a.entities id.raw = true))
      (fun _ y => Failed agent name x₀ y ∧ y.1 = x.1) (m x) := by
  refine (hm x).weaken ?_ ?_
  · intro _ y hy
    obtain ⟨a, rfl, ha, hlast⟩ := hy
    exact ⟨h.tail (hw a ha), a, rfl, hlast⟩
  · intro _ y hy
    obtain ⟨hag, a, rfl, ha⟩ := hy
    exact ⟨⟨hag, h.tail (hw a ha)⟩, rfl⟩

/-- The same for entities that are not readers, under the next id. -/
theorem Asks.requests {ts ts' : TopicState C.Schema Callback} {c : Client C.Schema Callback}
    (hm : Asks agent c.nextId id m) (h : Writes name x₀ (ts, c)) (hsame : SameReaders ts ts') :
    Act.Ends (fun _ y => Writes name x₀ y ∧ y.1 = ts')
      (fun _ y => Failed agent name x₀ y ∧ y.1 = ts') (m (ts', c.allocated)) := by
  refine (hm.writes (x := (ts', c.allocated)) h fun a ha => .request hsame ha).weaken ?_
    (fun _ _ h => h)
  intro _ y hy
  obtain ⟨hws, a, rfl, -⟩ := hy
  exact ⟨hws, rfl⟩

/-! ## CreateTopic -/

/-- What a first declaration can fail for. -/
def Unable (agent : Agent) (schema : Option C.Schema) (options : TopicOptions) : Prop :=
  ¬agent.Confirms ∨ options.maxPayloadBytes ≠ 0 ∨
    ∃ s text, schema = some s ∧ C.serializeIpc s = .error text

/-- A declaration that threw. -/
structure Refused (agent : Agent) (name : Bytes) (schema : Option C.Schema)
    (options : TopicOptions) (x₀ x : Local C Callback) : Prop extends Written name x₀ x where
  unable : x₀.1.isPublisher = false → Unable agent schema options

variable {schema : Option C.Schema} {options : TopicOptions}

theorem Failed.refused (h : Failed agent name x₀ x) (hrdr : SameReader x₀.1 x.1) :
    Refused agent name schema options x₀ x :=
  ⟨⟨h.writes, hrdr⟩, fun _ => Or.inl h.unconfirmed⟩

theorem writer_writes (bound : Nat) :
    Act.Ends (fun _ => Written name x₀) (fun _ => Refused agent name schema options x₀) ((do
        ensureTopic agent maxPayloadBytes name options bound (x₀.2.nextId % 2 ^ 16)
        createWriter agent (x₀.2.nextId % 2 ^ 16) : TopicAct C Callback Unit)
        (x₀.1, x₀.2.allocated)) := by
  obtain ⟨ts, c⟩ := x₀
  dsimp only
  -- a topic that is there, at the bound it will announce
  have hthere : ∀ b, Act.Ends (fun _ => Written name (ts, c))
      (fun _ => Refused agent name schema options (ts, c))
      (createWriter agent (c.nextId % 2 ^ 16)
        ({ ts with maxPayloadBytes := b }, c.allocated)) := by
    intro b
    have hsame : SameReaders ts { ts with
        maxPayloadBytes := b
        publisherId := c.object .publisher
        writerId := c.object .datawriter } := {}
    exact (Asks.requests asks_createBoth .refl hsame).weaken
      (fun _ _ h => ⟨h.1, h.2 ▸ hsame.toSameReader⟩)
      (fun _ _ h => Failed.refused h.1 (h.2 ▸ hsame.toSameReader))
  unfold ensureTopic
  rw [Act.bind_assoc, Act.get_bind]
  dsimp only
  split
  · rw [Act.bind_assoc, setTopic_bind]
    refine Act.Ends.bind ((asks_create.seq asks_create _).weaken
      (fun _ _ h => h) ?_) ?_
    · intro _ y hy
      obtain ⟨hag, a, rfl, ha⟩ := hy
      exact ⟨(Written.refl _).tail (.request {} ha), fun _ => Or.inl hag⟩
    · intro _ y hy
      obtain ⟨a, rfl, ha, -⟩ := hy
      refine (asks_createBoth _).weaken ?_ ?_
      · intro _ z hz
        obtain ⟨b, rfl, hb, -⟩ := hz
        exact (Written.refl _).tail (.request {} (ha.trans hb))
      · intro _ z hz
        obtain ⟨hag, b, rfl, hb⟩ := hz
        exact ⟨(Written.refl _).tail (.request {} (ha.trans hb)), fun _ => Or.inl hag⟩
  · split
    · split
      · next hoth =>
        exact ⟨(Written.refl _).tail (.request (a := ⟨c.requests, c.entities⟩) {} fun _ => Or.inl),
          fun _ => Or.inr (Or.inl hoth.1)⟩
      · exact hthere maxPayloadBytes
    · exact hthere ts.maxPayloadBytes

theorem announce_writes (h : Written name x₀ x) :
    Act.Ends (fun _ => Written name x₀) (fun _ => Refused agent name schema options x₀)
      (announce agent schema x) := by
  obtain ⟨ts, c⟩ := x
  cases schema with
  | none => exact h
  | some schema =>
    -- behind the requests, on whichever topic
    have hwrite : ∀ y, Written name x₀ y → Act.Ends (fun _ => Written name x₀)
        (fun _ => Refused agent name (some schema) options x₀) (writeSchema schema y) := by
      intro y hy
      unfold writeSchema
      cases hipc : C.serializeIpc schema with
      | error text => exact ⟨hy, fun _ => Or.inr (Or.inr ⟨schema, text, rfl, hipc⟩)⟩
      | ok ipc =>
        exact hy.tail (.quiet {} {})
    have hrequest : ∀ {ts' m id}, SameReaders ts ts' → Asks agent c.nextId id m →
        Act.Ends (fun _ => Written name x₀) (fun _ => Refused agent name (some schema) options x₀)
          ((m >>= fun _ => writeSchema schema) (ts', c.allocated)) := by
      intro ts' m id hsame hm
      have hreader : SameReader x₀.1 ts' := h.reader.trans hsame.toSameReader
      exact Act.Ends.bind ((hm.requests h.writes hsame).weaken (fun _ _ hy => hy)
        (fun _ _ hf => hf.1.refused (hf.2 ▸ hreader)))
        fun _ y hy => hwrite y ⟨hy.1, hy.2 ▸ hreader⟩
    unfold announce ensureSchemaTopic
    dsimp only
    rw [setTopic_bind, allocId_bind, setTopic_bind, Act.bind_assoc,
      Act.get_bind]
    dsimp only
    split
    · rw [Act.bind_assoc, setTopic_bind, ← Act.bind_assoc]
      exact hrequest {}
        (asks_create.seq asks_createBoth)
    · rw [Act.pure_bind]
      exact hrequest {} asks_createBoth

/-- What a `CreateTopic` that returns leaves. -/
structure Published (name : Bytes) (incoming : DeclaredSchema) (x₀ x : Local C Callback) :
    Prop extends Written name x₀ x where
  isPublisher : x.1.isPublisher = true
  declared : x₀.1.isPublisher = false → x.1.declared = incoming

theorem declareTopic_writes {bound : Nat} {incoming : DeclaredSchema} :
    Act.Ends (fun _ => Published name incoming x₀)
      (fun _ => Refused agent name schema options x₀)
      (declareTopic agent maxPayloadBytes name schema options bound incoming x₀) := by
  unfold declareTopic
  rw [Act.get_bind]
  split
  · next hdec =>
    have hnot : x₀.1.isPublisher ≠ false := Bool.ne_false_iff.mpr hdec
    split
    · exact ⟨Written.refl _, fun h => absurd h hnot⟩
    · split
      · exact ⟨Written.refl _, fun h => absurd h hnot⟩
      · exact ⟨Written.refl _, hdec, fun h => absurd h hnot⟩
  · rw [allocId_bind, ← Act.bind_assoc]
    refine Act.Ends.bind (writer_writes bound) ?_
    intro _ y hy
    refine Act.Ends.bind (announce_writes hy) ?_
    intro _ z hz
    exact ⟨hz.tail (.quiet {} {}), rfl, fun _ => rfl⟩

/-- A first declaration that nothing stands against goes through. -/
theorem declareTopic_first (hable : ¬Unable agent schema options) (bound : Nat)
    (incoming : DeclaredSchema) (hfst : x₀.1.isPublisher = false) :
    ∃ x, declareTopic agent maxPayloadBytes name schema options bound incoming x₀ =
      (.ok (), x) ∧ Published name incoming x₀ x :=
  (declareTopic_writes.weaken (fun _ _ h => h) fun _ _ h =>
    hable (h.unable hfst)).returns

/-- A declaration of a published topic that names no bound is compared with the first, and
nothing changes. -/
theorem declareTopic_again (hopt : options.maxPayloadBytes = 0) (bound : Nat)
    (incoming : DeclaredSchema) (hdec : x₀.1.isPublisher = true) :
    ∃ r, declareTopic agent maxPayloadBytes name schema options bound incoming x₀ =
      (r, x₀) ∧ r.isOk = !incoming.conflictsWith x₀.1.declared := by
  unfold declareTopic
  rw [Act.get_bind, if_pos hdec]
  cases incoming.conflictsWith x₀.1.declared with
  | true => exact ⟨_, rfl, rfl⟩
  | false =>
    refine ⟨.ok (), ?_, rfl⟩
    rw [if_neg (by nofun), if_neg (fun h => h.1 hopt)]
    rfl

/-! ## Subscribe -/

theorem createArrival_writes :
    Act.Ends (fun _ y => Written name x₀ y ∧ y.1.schemaResolver = some x₀.2.nextArrival)
      (fun _ => Failed agent name x₀) (createArrival x₀) := by
  obtain ⟨ts, c⟩ := x₀
  unfold createArrival dropResolver
  rw [Act.bind_assoc, Act.get_bind]
  dsimp only
  cases hres : ts.schemaResolver with
  | none => exact ⟨(Written.refl _).tail .issue, rfl⟩
  | some arrival => exact ⟨((Written.refl _).tail (.answer arrival .ended hres)).tail .issue, rfl⟩

theorem ensureParticipant_writes (h : Written name x₀ x) :
    Act.Ends (fun _ y => Written name x₀ y ∧ y.1.schemaResolver = x.1.schemaResolver)
      (fun _ => Failed agent name x₀) (ensureParticipant agent x) := by
  unfold ensureParticipant
  rw [Act.get_bind]
  split
  · rw [allocId_bind, setTopic_bind]
    refine ((asks_create.seq asks_create).requests h.writes
      {}).weaken ?_ (fun _ _ h => h.1)
    intro _ y hy
    obtain ⟨hws, hy⟩ := hy
    exact ⟨⟨hws, h.reader.trans (hy ▸ {})⟩, hy ▸ rfl⟩
  · exact ⟨h, rfl⟩

theorem awaitSchema_writes {arrival : Nat} (h : Written name x₀ x)
    (hres : x.1.schemaResolver = some arrival) :
    Act.Ends (fun _ => Written name x₀) (fun _ => Failed agent name x₀)
      (awaitSchema agent name x) := by
  obtain ⟨ts, c⟩ := x
  dsimp only at hres ⊢
  unfold awaitSchema
  rw [Act.get_bind]
  dsimp only
  cases ts.schema with
  | some schema =>
    dsimp only
    rw [setTopic_bind, hres]
    exact (h.tail (.answer arrival (.resolved (some schema)) hres)).tail (.quiet {} {})
  | none =>
    dsimp only
    split
    · rw [allocId_bind, setTopic_bind, ← Act.bind_assoc]
      refine Act.Ends.bind ((Asks.writes (asks_create.seq
        asks_createBoth) h.writes ?_).weaken (fun _ _ h => h)
        (fun _ _ h => h.1)) ?_
      · exact fun a ha => .schemaReader ha
      · intro _ y hy
        obtain ⟨hws, a, rfl, _⟩ := hy
        exact Written.tail ⟨hws, h.reader.trans {}⟩ (.schemaRoute rfl)
    · exact h

/-- The reader of a subscription: the one that was there, or a new one on the Agent. -/
structure HasReader (agent : Agent) (x₀ x : Local C Callback) : Prop where
  valid : x.1.subscriberId.type ≠ .invalid
  cached : x₀.1.subscriberId.type ≠ .invalid → x.1.readerId = x₀.1.readerId
  fresh : x₀.1.subscriberId.type = .invalid → agent.Confirms →
    x.2.entities x.1.readerId.raw = true

theorem ensureReader_writes (h : Writes name x₀ x) :
    Act.Ends (fun _ y => Writes name x₀ y ∧ HasReader agent x y) (fun _ => Failed agent name x₀)
      (ensureReader agent x) := by
  unfold ensureReader
  rw [Act.get_bind]
  split
  · next huns =>
    rw [allocId_bind, setTopic_bind]
    refine (Asks.writes asks_createBoth h ?_).weaken ?_
      (fun _ _ h => h.1)
    · exact fun a ha => .reader huns ha
    · intro _ y hy
      obtain ⟨hws, a, rfl, hlast⟩ := hy
      exact ⟨hws, nofun, fun hset => absurd huns hset, fun _ => hlast⟩
  · next hset => exact ⟨h, hset, fun _ => rfl, fun huns => absurd huns hset⟩

/-- What a `Subscribe` that returns leaves. -/
structure Opened (agent : Agent) (name : Bytes) (callback : Callback) (x₀ x : Local C Callback) :
    Prop where
  writes : Writes name x₀ x
  closed : x₀.1.hasReader = false
  reader : HasReader agent x₀ x
  hasReader : x.1.hasReader = true
  channel : x.1.channel = some callback

/-- A `Subscribe` that threw: for want of a confirmation, or because there is a reader. -/
def Unopened (agent : Agent) (name : Bytes) (x₀ x : Local C Callback) : Prop :=
  Failed agent name x₀ x ∨ x₀.1.hasReader = true ∧ x = x₀

theorem subscribeTopic_writes (callback : Callback) :
    Act.Ends (fun _ => Opened agent name callback x₀) (fun _ => Unopened agent name x₀)
      (subscribeTopic agent name callback x₀) := by
  unfold subscribeTopic
  rw [Act.get_bind]
  split
  · next hrdr => exact Or.inr ⟨hrdr, rfl⟩
  next hrdr =>
  rw [Bool.not_eq_true] at hrdr
  refine Act.Ends.weaken (Act.Ends.bind createArrival_writes ?_) (fun _ _ h => h)
    (fun _ _ h => Or.inl h)
  intro _ _ h₁
  refine Act.Ends.bind (ensureParticipant_writes h₁.1) ?_
  intro _ _ h₂
  refine Act.Ends.bind (awaitSchema_writes h₂.1 (h₂.2.trans h₁.2)) ?_
  intro _ x₃ h₃
  refine Act.Ends.bind (ensureReader_writes h₃.writes) ?_
  intro _ x₄ h₄
  obtain ⟨hws, hrdr₄⟩ := h₄
  -- the first three parts leave the reader alone
  have hsub := h₃.reader.subscriberId
  refine ⟨hws.tail (.channel callback hrdr₄.valid), hrdr, ⟨hrdr₄.valid, ?_, ?_⟩, rfl, rfl⟩
  · intro hval
    exact (hrdr₄.cached (hsub ▸ hval)).trans h₃.reader.readerId
  · intro hinv
    exact hrdr₄.fresh (hsub ▸ hinv)

/-! ## Unsubscribe -/

/-- What `Unsubscribe` leaves: no reader, on the Agent neither if there was one, and the ids
as they were. -/
structure Closed (name : Bytes) (x₀ x : Local C Callback) : Prop where
  writes : Writes name x₀ x
  subscriberId : x.1.subscriberId = x₀.1.subscriberId
  readerId : x.1.readerId = x₀.1.readerId
  hasReader : x.1.hasReader = false
  gone : x₀.1.hasReader = true → x.2.entities x.1.readerId.raw = false

/-- A part of `Unsubscribe` that is not about the reader. -/
def Quiet (name : Bytes) (m : TopicAct C Callback Unit) : Prop :=
  ∀ x, ∃ y, m x = (.ok (), y) ∧ Written name x y

theorem quiet_dropResolver : Quiet name (dropResolver : TopicAct C Callback Unit) := by
  intro x
  unfold dropResolver
  rw [Act.get_bind]
  cases hres : x.1.schemaResolver with
  | none => exact ⟨_, rfl, Written.refl _⟩
  | some arrival => exact ⟨_, rfl, (Written.refl _).tail (.answer arrival .ended hres)⟩

theorem quiet_closeSchemaReader :
    Quiet name (closeSchemaReader : TopicAct C Callback Unit) := by
  intro x
  unfold closeSchemaReader
  rw [Act.get_bind]
  split
  · next hset => exact ⟨_, rfl, (Written.refl _).tail (.closeSchemaReader hset)⟩
  · exact ⟨_, rfl, Written.refl _⟩

theorem quiet_closeSchemaSubscriber :
    Quiet name (closeSchemaSubscriber : TopicAct C Callback Unit) := by
  intro x
  unfold closeSchemaSubscriber
  rw [Act.get_bind]
  split
  · exact ⟨_, rfl, (Written.refl _).tail
      (.quiet {} { entities := fun _ => entities_update_false })⟩
  · exact ⟨_, rfl, Written.refl _⟩

theorem quiet_closeSchemaTopic :
    Quiet name (closeSchemaTopic : TopicAct C Callback Unit) := by
  intro x
  unfold closeSchemaTopic
  rw [Act.get_bind]
  split
  · exact ⟨_, rfl, (Written.refl _).tail
      (.quiet {} { entities := fun _ => entities_update_false })⟩
  · exact ⟨_, rfl, Written.refl _⟩

theorem Quiet.bind {f : Unit → TopicAct C Callback Unit} (hm : Quiet name m)
    (hf : ∀ y, Written name x₀ y → ∃ z, f () y = (.ok (), z) ∧ Closed name x₀ z)
    (h : Written name x₀ x) : ∃ z, (m >>= f) x = (.ok (), z) ∧ Closed name x₀ z := by
  obtain ⟨y, hrun, hy⟩ := hm x
  rw [Act.bind_of_ok hrun]
  exact hf y ⟨h.writes.trans hy.writes, h.reader.trans hy.reader⟩

/-- **Unsubscribe** always returns. -/
theorem unsubscribeTopic_writes :
    ∃ x, unsubscribeTopic x₀ = (.ok (), x) ∧ Closed name x₀ x := by
  unfold unsubscribeTopic
  refine quiet_dropResolver.bind ?_ (Written.refl _)
  refine fun _ => quiet_closeSchemaReader.bind ?_
  refine fun _ => quiet_closeSchemaSubscriber.bind ?_
  refine fun _ => quiet_closeSchemaTopic.bind ?_
  intro y hy
  obtain ⟨hws, hsame⟩ := hy
  unfold closeReader
  rw [Act.get_bind]
  split
  · exact ⟨_, rfl, hws.tail .closeReader, hsame.subscriberId, hsame.readerId, rfl,
      fun _ => update_self ..⟩
  · next hcl =>
    rw [Bool.not_eq_true] at hcl
    refine ⟨_, rfl, hws, hsame.subscriberId, hsame.readerId, hcl, ?_⟩
    intro hopen
    rw [← hsame.hasReader, hcl] at hopen
    cases hopen

end Calls

/-! ## One event -/

/-- The state of a topic, as `topics[name]` gives it. -/
def Impl.topic (s : Impl C.Schema Callback) (name : Bytes) : TopicState C.Schema Callback :=
  (s.topics name).getD {}

/-- A topic, with the session. -/
def Impl.on (s : Impl C.Schema Callback) (name : Bytes) : Local C Callback :=
  (s.topic name, s.client)

/-- `s'` is `s` with this topic and session. -/
structure Sets (s : Impl C.Schema Callback) (name : Bytes) (x : Local C Callback)
    (s' : Impl C.Schema Callback) : Prop where
  topic : s'.topic = update s.topic name x.1
  client : s'.client = x.2

/-- The event is a `Subscribe` of the topic that passes the door. -/
def Subscribes (name : Bytes) : Event C Callback → Prop
  | .subscribe inside segments _ => inside = false ∧ joinSegments segments = .ok name
  | _ => False

/-- The event is an `Unsubscribe` of the topic that passes the door. -/
def Unsubscribes (name : Bytes) : Event C Callback → Prop
  | .unsubscribe inside segments => inside = false ∧ joinSegments segments = .ok name
  | _ => False

section Events

variable {s : Impl C.Schema Callback} {name : Bytes}

theorem Sets.refl (s : Impl C.Schema Callback) (name : Bytes) : Sets s name (s.on name) s :=
  ⟨(update_eq_self ..).symm, rfl⟩

theorem Sets.self {x : Local C Callback} {s' : Impl C.Schema Callback} (h : Sets s name x s') :
    s'.on name = x := by
  unfold Impl.on
  rw [h.topic, h.client, update_self]

theorem sets_update (ts : TopicState C.Schema Callback) (c : Client C.Schema Callback) :
    Sets s name (ts, c) ⟨update s.topics name (some ts), c⟩ := by
  refine ⟨?_, rfl⟩
  funext other
  unfold Impl.topic
  by_cases h : other = name
  · subst h
    simp only [update_self, Option.getD_some]
  · simp only [update_of_ne h]

theorem onTopicState_of_run {m : TopicAct C Callback Unit} {r : Except PubSubError Unit}
    {x : Local C Callback} (h : m (s.on name) = (r, x)) :
    Impl.onTopicState name m s = (r, ⟨update s.topics name (some x.1), x.2⟩) := by
  unfold Impl.onTopicState
  rw [show m ((s.topics name).getD {}, s.client) = (r, x) from h]

/-- **What one event does**, with everything that was checked. -/
inductive Stepped (agent : Agent) (s : Impl C.Schema Callback) :
    Event C Callback → Except PubSubError Unit → Impl C.Schema Callback → Prop where
  /-- Refused at the door. -/
  | refused {e error} (subscribes : ∀ name, ¬Subscribes name e)
    (unsubscribes : ∀ name, ¬Unsubscribes name e) : Stepped agent s e (.error error) s
  | declared {segments schema options r x s'} (name : Bytes)
    (topic : joinSegments segments = .ok name) (sets : Sets s name x s')
    (ends : Act.Ends (fun _ => Published name (C.encode schema) (s.on name))
      (fun _ => Refused agent name schema options (s.on name)) (r, x)) :
    Stepped agent s (.createTopic false segments schema options) r s'
  | subscribed {segments callback r x s'} (name : Bytes)
    (topic : joinSegments segments = .ok name) (sets : Sets s name x s')
    (ends : Act.Ends (fun _ => Opened agent name callback (s.on name))
      (fun _ => Unopened agent name (s.on name)) (r, x)) :
    Stepped agent s (.subscribe false segments callback) r s'
  | unsubscribed {segments x s'} (name : Bytes) (topic : joinSegments segments = .ok name)
    (sets : Sets s name x s') (closed : Closed name (s.on name) x) :
    Stepped agent s (.unsubscribe false segments) (.ok ()) s'
  | sampled {objectId payload x s'} (name : Bytes) (sets : Sets s name x s')
    (written : Written name (s.on name) x) :
    Stepped agent s (.sample objectId payload) (.ok ()) s'

theorem topicName_cases (segments : List Bytes) :
    (∃ name, joinSegments segments = .ok name ∧ topicName segments = .ok name) ∨
      (∀ name, joinSegments segments ≠ .ok name) ∧ ∃ e, topicName segments = .error e := by
  unfold topicName
  cases joinSegments segments with
  | ok name => exact Or.inl ⟨name, rfl, rfl⟩
  | error text => exact Or.inr ⟨nofun, _, rfl⟩

theorem createTopic_stepped {inside : Bool} {segments : List Bytes} {schema : Option C.Schema}
    {options : TopicOptions} :
    Stepped agent s (.createTopic inside segments schema options)
      (Impl.createTopicWithOptions agent maxPayloadBytes inside segments schema options s).1
      (Impl.createTopicWithOptions agent maxPayloadBytes inside segments schema options s).2 := by
  have href : ∀ e : PubSubError,
      Stepped agent s (.createTopic inside segments schema options) (.error e) s :=
    fun e => .refused (fun _ h => h) (fun _ h => h)
  unfold Impl.createTopicWithOptions Impl.requireNoProfile Impl.requireBound
  cases inside with
  | true => exact href _
  | false =>
    show Stepped agent s _ (Act.bind _ _ s).1 (Act.bind _ _ s).2
    split
    · rcases topicName_cases segments with ⟨name, hname, htop⟩ | ⟨_, e, htop⟩
      · rw [htop]
        split
        · exact .declared name hname (sets_update ..) declareTopic_writes
        · exact href _
      · rw [htop]
        exact href e
    · exact href _

theorem subscribe_stepped {inside : Bool} {segments : List Bytes} {callback : Callback} :
    Stepped agent s (.subscribe inside segments callback)
      (Impl.subscribe agent inside segments callback s).1
      (Impl.subscribe agent inside segments callback s).2 := by
  unfold Impl.subscribe
  cases inside with
  | true =>
    exact .refused (fun _ h => by cases h.1) (fun _ h => h)
  | false =>
    show Stepped agent s _ (Act.bind _ _ s).1 (Act.bind _ _ s).2
    rcases topicName_cases segments with ⟨name, hname, htop⟩ | ⟨hnone, e, htop⟩
    · rw [htop]
      exact .subscribed name hname (sets_update ..) (subscribeTopic_writes callback)
    · rw [htop]
      exact .refused (fun name h => hnone name h.2) (fun _ h => h)

theorem unsubscribe_stepped (inside : Bool) (segments : List Bytes) :
    Stepped agent s (.unsubscribe inside segments) (Impl.unsubscribe inside segments s).1
      (Impl.unsubscribe inside segments s).2 := by
  cases inside with
  | true =>
    exact .refused (fun _ h => h) (fun _ h => by cases h.1)
  | false =>
    rcases topicName_cases segments with ⟨name, hname, htop⟩ | ⟨hnone, e, htop⟩
    · cases hs : s.topics name with
      | some _ =>
        have hgo : Impl.unsubscribe false segments s =
            Impl.onTopicState name unsubscribeTopic s := by
          simp only [Impl.unsubscribe, refuseIfInside, Bool.false_eq_true, if_false, htop, bind,
            Act.bind, Act.lift, Act.get, hs]
        obtain ⟨x, hrun, hcl⟩ : ∃ x, unsubscribeTopic (s.on name) = (.ok (), x) ∧
            Closed name (s.on name) x := unsubscribeTopic_writes
        rw [hgo, onTopicState_of_run hrun]
        exact .unsubscribed name hname (sets_update ..) hcl
      | none =>
        have hgo : Impl.unsubscribe false segments s = (.ok (), s) := by
          simp only [Impl.unsubscribe, refuseIfInside, Bool.false_eq_true, if_false, htop, bind,
            Act.bind, Act.lift, Act.get, hs]
          rfl
        have hcl : (s.topic name).hasReader = false := by
          unfold Impl.topic
          rw [hs]
          rfl
        rw [hgo]
        exact .unsubscribed name hname (Sets.refl s name)
          ⟨.refl, rfl, rfl, hcl, fun hopen => by cases hcl.symm.trans hopen⟩
    · have hgo : Impl.unsubscribe false segments s = (.error e, s) := by
        simp only [Impl.unsubscribe, refuseIfInside, htop, bind, Act.bind, Act.lift]
        rfl
      rw [hgo]
      exact .refused (fun _ h => h) (fun name h => hnone name h.2)

theorem topic_of_some {ts : TopicState C.Schema Callback} (h : s.topics name = some ts) :
    s.topic name = ts := by
  unfold Impl.topic
  rw [h]
  rfl

theorem sample_stepped (objectId : Nat) (payload : Bytes) :
    Stepped agent s (.sample objectId payload) (.ok ()) (s.onTopic objectId payload) := by
  have hnot : Stepped agent s (.sample objectId payload) (.ok ()) s :=
    .sampled [] (Sets.refl s []) (Written.refl _)
  unfold Impl.onTopic
  dsimp only
  split
  · exact hnot
  · split
    · next name _ =>
      split
      · next ts hts =>
        unfold Impl.onSchema
        split
        · exact hnot
        · next arrival hwai =>
          split
          · exact hnot
          · next schema _ =>
            obtain rfl := topic_of_some hts
            exact .sampled name (sets_update ..) (((Written.refl _).tail
              (.answer arrival (.resolved (some schema)) hwai)).tail (.quiet {} {}))
      · exact hnot
    · split
      · next name _ =>
        split
        · next ts hts =>
          obtain rfl := topic_of_some hts
          unfold Impl.onData
          split
          · split
            · exact .sampled name (sets_update ..) ((Written.refl _).tail (.quiet {} {}))
            · exact .sampled name ⟨(update_eq_self ..).symm, rfl⟩
                ((Written.refl _).tail (.quiet {} {}))
          · exact hnot
        · exact hnot
      · exact hnot

variable (agent maxPayloadBytes)

theorem step_stepped (e : Event C Callback) (s : Impl C.Schema Callback) :
    Stepped agent s e (Impl.step agent maxPayloadBytes e s).1
      (Impl.step agent maxPayloadBytes e s).2 := by
  cases e with
  | createTopic inside segments schema options =>
    exact createTopic_stepped
  | subscribe inside segments callback => exact subscribe_stepped
  | unsubscribe inside segments => exact unsubscribe_stepped inside segments
  | sample objectId payload => exact sample_stepped objectId payload

variable {agent maxPayloadBytes}

/-- An event is some writes on one topic. -/
theorem Stepped.writes {e : Event C Callback} {r : Except PubSubError Unit}
    {s' : Impl C.Schema Callback} (h : Stepped agent s e r s') :
    ∃ name x, Sets s name x s' ∧ Writes name (s.on name) x := by
  cases h with
  | refused => exact ⟨[], _, Sets.refl s [], .refl⟩
  | declared name _ sets ends =>
    exact ⟨name, _, sets, (ends.weaken (fun _ _ h => h.writes) fun _ _ h => h.writes).always⟩
  | subscribed name _ sets ends =>
    refine ⟨name, _, sets, (ends.weaken (fun _ _ h => h.writes) ?_).always⟩
    intro e x h
    rcases h with h | ⟨_, h⟩
    · exact h.writes
    · exact h ▸ .refl
  | unsubscribed name _ sets closed => exact ⟨name, _, sets, closed.writes⟩
  | sampled name sets written => exact ⟨name, _, sets, written.writes⟩

section Invariant

variable (agent maxPayloadBytes)
  {I : (Bytes → TopicState C.Schema Callback) → Client C.Schema Callback → Prop}
  (hwrite : ∀ topics c name x, I topics c → Write name (topics name, c) x →
    I (update topics name x.1) x.2)

include hwrite

theorem invariant_step (e : Event C Callback) (h : I s.topic s.client) :
    I (Impl.step agent maxPayloadBytes e s).2.topic
      (Impl.step agent maxPayloadBytes e s).2.client := by
  obtain ⟨name, x, hsets, hx⟩ := (step_stepped agent maxPayloadBytes e s).writes
  rw [hsets.topic, hsets.client]
  clear hsets
  induction hx with
  | refl =>
    show I (update s.topic name (s.topic name)) s.client
    rw [update_eq_self]
    exact h
  | tail _ hw ih =>
    rw [← update_idem]
    refine hwrite _ _ name _ ih ?_
    rw [update_self]
    exact hw

/-- **What every write keeps holds after every history.** -/
theorem invariant_play (es : List (Event C Callback)) : ∀ s, I s.topic s.client →
    I (Impl.play agent maxPayloadBytes s es).topic
      (Impl.play agent maxPayloadBytes s es).client := by
  induction es with
  | nil => exact fun _ h => h
  | cons e es ih => exact fun s h => ih _ (invariant_step agent maxPayloadBytes hwrite e h)

end Invariant

/-- What a write keeps on its own topic, and the session's part of it on the others. -/
theorem forall_update {J : Local C Callback → Prop} {topics : Bytes → TopicState C.Schema Callback}
    {c : Client C.Schema Callback} {x : Local C Callback} (h : ∀ n, J (topics n, c))
    (hself : J x) (hoth : ∀ ts, J (ts, c) → J (ts, x.2)) :
    ∀ n, J (update topics name x.1 n, x.2) := by
  intro n
  by_cases hn : n = name
  · rw [hn, update_self]
    exact hself
  · rw [update_of_ne hn]
    exact hoth _ (h n)

end Events

/-! ## Schema arrivals -/

/-- The resolvers that topics hold, each until the schema comes or the subscription ends, and
what the arrivals report. -/
structure Ledger (S : Type) where
  resolver : Bytes → Option Nat
  next : Nat
  arrivals : Nat → Arrival S

namespace Ledger

variable {S : Type} {l l' : Ledger S} {past : Nat → Arrival S}

inductive Step (l : Ledger S) : Ledger S → Prop where
  | keep : Step l l
  | answer (key : Bytes) (k : Nat) (outcome : Arrival S) (held : l.resolver key = some k) :
    Step l ⟨update l.resolver key none, l.next, update l.arrivals k outcome⟩
  | issue (key : Bytes) : Step l ⟨update l.resolver key l.next, l.next + 1, l.arrivals⟩

/-- A resolver that is held is the only one of its arrival, and that still waits; what was
reported in the past still is. -/
structure Sound (past : Nat → Arrival S) (l : Ledger S) : Prop where
  held : ∀ key k, l.resolver key = some k → k < l.next ∧ l.arrivals k = .waiting
  alone : ∀ key key' k, l.resolver key = some k → l.resolver key' = some k → key = key'
  unissued : ∀ k, l.next ≤ k → l.arrivals k = .waiting
  kept : ∀ k, past k ≠ .waiting → l.arrivals k = past k

theorem Sound.step (h : l.Sound past) (hs : l.Step l') : l'.Sound past := by
  obtain ⟨hheld, halone, hun, hkept⟩ := h
  cases hs with
  | keep => exact ⟨hheld, halone, hun, hkept⟩
  | answer key k outcome held =>
    -- no other topic holds a resolver of `k`
    constructor <;> grind [update_apply]
  | issue key =>
    -- the resolvers that are held are of earlier numbers
    constructor <;> grind [update_apply]

end Ledger

def ledger (topics : Bytes → TopicState C.Schema Callback) (c : Client C.Schema Callback) :
    Ledger C.Schema :=
  ⟨TopicState.schemaResolver ∘ topics, c.nextArrival, c.arrivals⟩

theorem Write.ledger_step {topics : Bytes → TopicState C.Schema Callback} {name : Bytes}
    {c : Client C.Schema Callback} {x : Local C Callback} (hw : Write name (topics name, c) x) :
    (ledger topics c).Step (ledger (update topics name x.1) x.2) := by
  unfold ledger
  rw [comp_update]
  generalize hts : topics name = ts at hw
  have hres : (TopicState.schemaResolver ∘ topics) name = ts.schemaResolver :=
    congrArg TopicState.schemaResolver hts
  have hkeep : ∀ {r}, r = ts.schemaResolver →
      update (TopicState.schemaResolver ∘ topics) name r =
        TopicState.schemaResolver ∘ topics :=
    fun h => update_eq_self_iff.mpr (h.trans hres.symm)
  cases hw with
  | answer k outcome waiting => exact .answer name k outcome (hres.trans waiting)
  | issue => exact .issue name
  | quiet same routes =>
    rw [hkeep same.schemaResolver, routes.nextArrival, routes.arrivals]
    exact .keep
  | request same _ =>
    rw [hkeep same.schemaResolver]
    exact .keep
  | _ =>
    -- the other writes leave the topic's resolver as it is
    rw [hkeep rfl]
    exact .keep

theorem sound_play {s : Impl C.Schema Callback} {past : Nat → Arrival C.Schema}
    (h : (ledger s.topic s.client).Sound past) (es : List (Event C Callback)) :
    (ledger (Impl.play agent maxPayloadBytes s es).topic
      (Impl.play agent maxPayloadBytes s es).client).Sound past :=
  invariant_play (I := fun topics c => (ledger topics c).Sound past) agent maxPayloadBytes
    (fun _ _ _ _ h hw => h.step hw.ledger_step) es s h

/-- **An arrival is answered once.** Whatever the Agent confirms and whichever samples come,
a resolver is held by one topic, for an arrival that still waits; and what an arrival
reports it reports from then on. -/
theorem arrival_answered_once (es : List (Event C Callback)) {s : Impl C.Schema Callback}
    (hs : Impl.play agent maxPayloadBytes {} es = s) :
    (∀ name k, (s.topic name).schemaResolver = some k → s.client.arrivals k = .waiting ∧
      ∀ name', (s.topic name').schemaResolver = some k → name = name') ∧
    ∀ k, s.client.arrivals k ≠ .waiting → ∀ es',
      (Impl.play agent maxPayloadBytes s es').client.arrivals k = s.client.arrivals k := by
  have hinit : (ledger (C := C) (Impl.topic {}) ({} : Client C.Schema Callback)).Sound
      fun _ => .waiting :=
    ⟨by rintro _ _ ⟨⟩, by rintro _ _ _ ⟨⟩, fun _ _ => rfl, fun _ _ => rfl⟩
  obtain ⟨hheld, halone, hun, _⟩ := hs ▸ sound_play hinit es
  refine ⟨fun name k h => ⟨(hheld name k h).2, fun name' => halone name name' k h⟩, ?_⟩
  intro k hk es'
  exact (sound_play ⟨hheld, halone, hun, fun _ _ => rfl⟩ es').kept k hk

theorem arrival_answered_once_waiting :
    (Impl.play willing 65536 {} [.subscribe false [[97]] ()] :
      Impl oneSchema.Schema Unit).client.arrivals 0 = .waiting :=
  ((arrival_answered_once (C := oneSchema) _ rfl).1 [97] 0 (by decide +kernel)).1

end Fletcher.Xrce
