import Fletcher.Xrce.Writes

/-!
# Subscribing again

Does a `Subscribe` that returns leave a data reader on the Agent whose samples reach the
callback? The first one of a topic does: it creates the subscriber and the reader.
`Unsubscribe` deletes the reader and keeps both ids, and the next `Subscribe` takes a valid
subscriber id for a reader that is there.

Both directions are inductions over the history, as long as the twelve bits of the wire have
not gone round. That a topic which is not subscribed again is served needs what a cached id
means (`Remembered`) and that nothing else is routed under a new id (`Routed`). That one which
is subscribed again is not needs that no other entity has come to sit under the reader's id
(`Fresh`).
-/

namespace Fletcher.Xrce

open Lib Fletcher.Core PubSub List Impl

variable {C : Codec} {Callback : Type} {c : Client C.Schema Callback} {s : Impl C.Schema Callback}
  {x : Local C Callback} (agent : Agent) (maxPayloadBytes : Nat)

/-! ## The property -/

/-- What a payload carries: an envelope behind the length of a CDR sequence. -/
def carried (payload : Bytes) : Option Envelope :=
  if payload.length < 4 ∨ payload.length < 4 + ofLe (payload.take 4) then none
  else (deserializeEnvelopeFrom true ((payload.drop 4).take (ofLe (payload.take 4)))).toOption

/-- A sample that comes under the topic's reader id, of which the wire has twelve bits, gets to
the callback: at once, or into the buffer that goes out when the schema comes. -/
def Delivers (s : Impl C.Schema Callback) (name : Bytes) (callback : Callback) : Prop :=
  ∀ payload envelope s', carried payload = some envelope →
    s.onTopic ((s.topic name).readerId.id % 2 ^ 12) payload = s' →
    (∃ schema, s'.client.delivered = s.client.delivered ++ [⟨callback, some schema, envelope⟩]) ∨
      (s'.topic name).channel = some callback ∧
        (s'.topic name).pending = (s.topic name).pending ++ [envelope]

/-- The Agent has a data reader under the topic's reader id, and its samples get here. -/
structure Live (s : Impl C.Schema Callback) (name : Bytes) (callback : Callback) : Prop where
  kind : (s.topic name).readerId.type = .datareader
  entity : s.client.entities (s.topic name).readerId.raw = true
  delivers : Delivers s name callback

/-- Every `Subscribe` of the history that returns leaves a live reader. -/
def Served : Impl C.Schema Callback → List (Event C Callback) → Prop
  | _, [] => True
  | s, e :: es =>
    (∀ segments callback name, e = .subscribe false segments callback →
      joinSegments segments = .ok name → (step agent maxPayloadBytes e s).1 = .ok () →
      Live (step agent maxPayloadBytes e s).2 name callback) ∧
    Served (step agent maxPayloadBytes e s).2 es

/-- A topic is subscribed, unsubscribed, and subscribed again. -/
def Resubscribes (es : List (Event C Callback)) : Prop :=
  ∃ name a b c, List.Sublist [a, b, c] es ∧ Subscribes name a ∧ Unsubscribes name b ∧
    Subscribes name c

variable {agent maxPayloadBytes} {name : Bytes}

/-! ## What one event does to a reader -/

/-- `c` came after `c₀`: ids were only handed out, and what the Agent has got since goes by
an id handed out since. -/
def Since (c₀ c : Client C.Schema Callback) : Prop :=
  c₀.nextId ≤ c.nextId ∧ ∀ raw, c.entities raw = true →
    c₀.entities raw = true ∨ ∃ n, c₀.nextId ≤ n ∧ n < c.nextId ∧ raw.1 = n % 2 ^ 12

theorem Since.refl (c : Client C.Schema Callback) : Since c c :=
  ⟨Nat.le_refl _, fun _ h => Or.inl h⟩

theorem Since.trans {c₀ c₁ c₂ : Client C.Schema Callback} (h : Since c₀ c₁) (h' : Since c₁ c₂) :
    Since c₀ c₂ := by
  refine ⟨Nat.le_trans h.1 h'.1, ?_⟩
  intro raw hraw
  rcases h'.2 raw hraw with hold | ⟨n, hn, hlt, heq⟩
  · rcases h.2 raw hold with hold | ⟨n, hn, hlt, heq⟩
    · exact Or.inl hold
    · exact Or.inr ⟨n, hn, Nat.lt_of_lt_of_le hlt h'.1, heq⟩
  · exact Or.inr ⟨n, Nat.le_trans h.1 hn, hlt, heq⟩

theorem since_asked {a : Asking} (h : Asked c.nextId c.allocated a) :
    Since c (c.allocated.asked a) := by
  refine ⟨Nat.le_succ _, ?_⟩
  intro raw hraw
  rcases h raw hraw with hold | hnew
  · exact Or.inl hold
  · exact Or.inr ⟨c.nextId, Nat.le_refl _, Nat.lt_succ_self _, hnew⟩

theorem Write.since {y : Local C Callback} (h : Write name x y) :
    Since x.2 y.2 := by
  cases h with
  | request _ asked => exact since_asked asked
  | schemaReader asked => exact since_asked asked
  | reader _ asked => exact since_asked asked
  | quiet _ routes =>
    exact ⟨Nat.le_of_eq routes.nextId.symm, fun raw h => Or.inl (routes.entities raw h)⟩
  | closeSchemaReader | closeReader =>
    exact ⟨Nat.le_refl _, fun _ h => Or.inl (entities_update_false h)⟩
  | _ => exact ⟨Nat.le_refl _, fun _ h => Or.inl h⟩

theorem step_since (e : Event C Callback) (s : Impl C.Schema Callback) :
    Since s.client (step agent maxPayloadBytes e s).2.client := by
  obtain ⟨_, x, hsets, hx⟩ := (step_stepped agent maxPayloadBytes e s).writes
  rw [hsets.client]
  clear hsets
  induction hx with
  | refl => exact Since.refl _
  | tail _ hw ih => exact ih.trans hw.since

/-- What an event can do to the reader of one topic. -/
inductive Moved (agent : Agent) (name : Bytes) (e : Event C Callback)
    (s s' : Impl C.Schema Callback) (r : Except PubSubError Unit) : Prop where
  /-- Nothing; a `Subscribe` of the topic was refused. -/
  | same (reader : SameReader (s.topic name) (s'.topic name))
    (refused : Subscribes name e → (s.topic name).hasReader = true ∧ r ≠ .ok ())
    (idle : ¬Unsubscribes name e)
  /-- A `Subscribe` of the topic returned. -/
  | opened (segments : List Bytes) (callback : Callback)
    (call : e = .subscribe false segments callback) (topic : joinSegments segments = .ok name)
    (returned : r = .ok ()) (spec : Opened agent name callback (s.on name) (s'.on name))
  /-- An `Unsubscribe` of the topic returned. -/
  | closed (call : Unsubscribes name e) (spec : Closed name (s.on name) (s'.on name))

theorem moved_other {e : Event C Callback} {r : Except PubSubError Unit} {other : Bytes}
    {s' : Impl C.Schema Callback} (hsets : Sets s name x s')
    (hne : other ≠ name) (hsub : ¬Subscribes other e) (huns : ¬Unsubscribes other e) :
    Moved agent other e s s' r := by
  refine .same ?_ (fun h => absurd h hsub) huns
  rw [hsets.topic, Function.update_of_ne hne]
  exact {}

theorem Stepped.moved (hag : agent.Confirms) {e : Event C Callback}
    {r : Except PubSubError Unit} {s' : Impl C.Schema Callback} (h : Stepped agent s e r s')
    (name : Bytes) : Moved agent name e s s' r := by
  have hoth : ∀ {segments : List Bytes} {topic : Bytes}, joinSegments segments = .ok topic →
      name ≠ topic → ¬(false = false ∧ joinSegments segments = .ok name) := by
    intro segments topic htop hne hname
    exact hne (Except.ok.inj (hname.2.symm.trans htop))
  cases h with
  | refused subscribes unsubscribes =>
    exact .same {} (fun h => absurd h (subscribes name)) (unsubscribes name)
  | declared topic _ sets ends =>
    by_cases hname : name = topic
    · subst hname
      refine .same ?_ (fun h => h.elim) (fun h => h)
      rw [sets.topic, Function.update_self]
      exact (ends.weaken (fun _ _ h => h.reader) fun _ _ h => h.reader).always
    · exact moved_other sets hname (fun h => h) (fun h => h)
  | subscribed topic htop sets ends =>
    by_cases hname : name = topic
    · subst hname
      cases r with
      | ok _ => exact .opened _ _ rfl htop rfl (sets.self ▸ ends)
      | error e =>
        rcases ends with hfail | ⟨hrdr, hsame⟩
        · exact absurd hag hfail.unconfirmed
        · refine .same ?_ (fun _ => ⟨hrdr, nofun⟩) (fun h => h)
          rw [sets.topic, Function.update_self, hsame]
          exact {}
    · exact moved_other sets hname (hoth htop hname) (fun h => h)
  | unsubscribed topic htop sets closed =>
    by_cases hname : name = topic
    · subst hname
      exact .closed ⟨rfl, htop⟩ (sets.self ▸ closed)
    · exact moved_other sets hname (fun h => h) (hoth htop hname)
  | sampled topic sets written =>
    by_cases hname : name = topic
    · subst hname
      refine .same ?_ (fun h => h.elim) (fun h => h)
      rw [sets.topic, Function.update_self]
      exact written.reader
    · exact moved_other sets hname (fun h => h) (fun h => h)

theorem step_moved (hag : agent.Confirms) (e : Event C Callback)
    (s : Impl C.Schema Callback) (name : Bytes) :
    Moved agent name e s (step agent maxPayloadBytes e s).2
      (step agent maxPayloadBytes e s).1 :=
  (step_stepped agent maxPayloadBytes e s).moved hag name

/-! ## What a cached id means -/

/-- A topic with a subscriber id was subscribed, and if it has no reader any more, it was
unsubscribed after that. -/
def Remembered (es : List (Event C Callback)) (s : Impl C.Schema Callback) : Prop :=
  ∀ name, (s.topic name).subscriberId.type ≠ .invalid →
    (∃ a ∈ es, Subscribes name a) ∧
    ((s.topic name).hasReader = false →
      ∃ a b, List.Sublist [a, b] es ∧ Subscribes name a ∧ Unsubscribes name b)

theorem remembered_init : Remembered [] ({} : Impl C.Schema Callback) := fun _ h => absurd rfl h

theorem remembered_step (hag : agent.Confirms) {es : List (Event C Callback)}
    (h : Remembered es s) (e : Event C Callback) :
    Remembered (es ++ [e]) (step agent maxPayloadBytes e s).2 := by
  intro name hval
  have hlat : ∀ {a : Event C Callback}, a ∈ es → a ∈ es ++ [e] :=
    fun ha => mem_append_left _ ha
  cases step_moved hag e s name with
  | same reader _ _ =>
    rw [reader.subscriberId] at hval
    obtain ⟨⟨a, ha, hsub⟩, hcl⟩ := h name hval
    refine ⟨⟨a, hlat ha, hsub⟩, ?_⟩
    intro hff
    rw [reader.hasReader] at hff
    obtain ⟨a, b, hab, hsa, hub⟩ := hcl hff
    exact ⟨a, b, hab.trans (sublist_append_left _ _), hsa, hub⟩
  | opened _ _ call topic _ spec =>
    refine ⟨⟨e, mem_append_right _ mem_cons_self, call ▸ ⟨rfl, topic⟩⟩, ?_⟩
    intro hff
    exact nomatch hff.symm.trans spec.hasReader
  | closed call spec =>
    rw [show ((step agent maxPayloadBytes e s).2.topic name).subscriberId = _ from
      spec.subscriberId] at hval
    obtain ⟨⟨a, ha, hsub⟩, _⟩ := h name hval
    refine ⟨⟨a, hlat ha, hsub⟩, ?_⟩
    intro _
    exact ⟨a, e, (singleton_sublist.mpr ha).append (List.Sublist.refl [e]), hsub, call⟩

/-! ## Where samples go -/

/-- Ids are never taken back. -/
theorem nextId_le_play (es : List (Event C Callback)) :
    ∀ s, s.client.nextId ≤ (play agent maxPayloadBytes s es).client.nextId := by
  induction es with
  | nil => intro s; exact Nat.le_refl _
  | cons e es ih =>
    intro s
    exact Nat.le_trans (step_since e s).1 (ih _)

/-- A topic with a reader has a subscriber id, and then a reader id that was handed out; so was
every id a schema reader goes by. -/
structure Backed (x : Local C Callback) : Prop where
  valid : x.1.hasReader = true → x.1.subscriberId.type ≠ .invalid
  typed : x.1.subscriberId.type ≠ .invalid → x.1.readerId.type = .datareader
  handed : x.1.subscriberId.type ≠ .invalid → x.1.readerId.id < x.2.nextId
  schema : x.1.schemaReaderId.type ≠ .invalid → x.1.schemaReaderId.id < x.2.nextId
  keys : ∀ k, x.2.schemaReaderToTopic k ≠ none → k < x.2.nextId

theorem Backed.later {ts : TopicState C.Schema Callback} {c' : Client C.Schema Callback}
    (h : Backed (ts, c)) (hle : c.nextId ≤ c'.nextId)
    (hkeys : ∀ k, c'.schemaReaderToTopic k ≠ none → k < c'.nextId) : Backed (ts, c') :=
  ⟨h.valid, h.typed, fun hval => Nat.lt_of_lt_of_le (h.handed hval) hle,
    fun hval => Nat.lt_of_lt_of_le (h.schema hval) hle, hkeys⟩

theorem Backed.same {ts ts' : TopicState C.Schema Callback} (h : Backed (ts, c))
    (hsame : SameReaders ts ts') : Backed (ts', c) := by
  constructor
  all_goals dsimp only
  · rw [hsame.subscriberId, hsame.hasReader]
    exact h.valid
  · rw [hsame.subscriberId, hsame.readerId]
    exact h.typed
  · rw [hsame.subscriberId, hsame.readerId]
    exact h.handed
  · rw [hsame.schemaReaderId]
    exact h.schema
  · exact h.keys

theorem Write.keys {y : Local C Callback} (hw : Write name x y) (h : Backed x) :
    ∀ k, y.2.schemaReaderToTopic k ≠ none → k < y.2.nextId := by
  have hle := hw.since.1
  intro k hk
  cases hw with
  | @schemaRoute ts c set =>
    dsimp only at hk
    by_cases heq : k = ts.schemaReaderId.id
    · rw [heq]
      exact h.schema (by rw [set]; nofun)
    · exact h.keys k (by rwa [Function.update_of_ne heq] at hk)
  | @closeSchemaReader ts c set =>
    dsimp only at hk
    by_cases heq : k = ts.schemaReaderId.id
    · rw [heq, Function.update_self] at hk
      exact absurd rfl hk
    · exact h.keys k (by rwa [Function.update_of_ne heq] at hk)
  | quiet _ routes =>
    dsimp only at hk
    rw [routes.schemaReaderToTopic] at hk
    exact Nat.lt_of_lt_of_le (h.keys k hk) hle
  | _ => exact Nat.lt_of_lt_of_le (h.keys k hk) hle

theorem Write.backed {y : Local C Callback} (hw : Write name x y) (h : Backed x) :
    Backed y := by
  have hlat := h.later hw.since.1 (hw.keys h)
  cases hw with
  | reader =>
    exact ⟨fun _ => nofun, fun _ => rfl, fun _ => Nat.lt_succ_of_le (Nat.mod_le ..), hlat.schema,
      hlat.keys⟩
  | schemaReader =>
    exact ⟨hlat.valid, hlat.typed, hlat.handed, fun _ => Nat.lt_succ_of_le (Nat.mod_le ..),
      hlat.keys⟩
  | channel _ set => exact ⟨fun _ => set, hlat.typed, hlat.handed, hlat.schema, hlat.keys⟩
  | closeReader => exact ⟨nofun, hlat.typed, hlat.handed, hlat.schema, hlat.keys⟩
  | closeSchemaReader =>
    exact ⟨hlat.valid, hlat.typed, hlat.handed, fun hval => absurd rfl hval, hlat.keys⟩
  | request same _ | quiet same _ => exact hlat.same same
  | _ => exact ⟨hlat.valid, hlat.typed, hlat.handed, hlat.schema, hlat.keys⟩

theorem backed_write {topics : Bytes → TopicState C.Schema Callback}
    (h : ∀ n, Backed (topics n, c)) (hw : Write name (topics name, c) x) :
    ∀ n, Backed (Function.update topics name x.1 n, x.2) :=
  forall_update h (hw.backed (h name)) fun _ hts =>
    hts.later hw.since.1 (hw.keys (h name))

theorem backed_step (e : Event C Callback) (h : ∀ name, Backed (s.on name)) (name : Bytes) :
    Backed ((step agent maxPayloadBytes e s).2.on name) :=
  invariant_step agent maxPayloadBytes (I := fun topics c => ∀ n, Backed (topics n, c))
    (fun _ _ _ _ hall hw => backed_write hall hw) e h name

theorem backed_init (n : Bytes) : Backed (({} : Impl C.Schema Callback).on n) :=
  ⟨nofun, fun h => absurd rfl h, fun h => absurd rfl h, fun h => absurd rfl h,
    fun _ h => absurd rfl h⟩

/-- On the way of one call: no schema reader goes by the topic's reader id, and an open reader
is routed to the topic. -/
structure Routed (name : Bytes) (x : Local C Callback) : Prop where
  backed : Backed x
  apart : x.1.subscriberId.type ≠ .invalid → x.2.schemaReaderToTopic x.1.readerId.id = none ∧
    (x.1.schemaReaderId.type ≠ .invalid → x.1.schemaReaderId.id ≠ x.1.readerId.id)
  data : x.1.hasReader = true → x.2.readerToTopic x.1.readerId.id = some name

theorem Routed.same {ts ts' : TopicState C.Schema Callback}
    {c' : Client C.Schema Callback} (h : Routed name (ts, c)) (hsame : SameReaders ts ts')
    (hdata : c'.readerToTopic = c.readerToTopic)
    (hschema : c'.schemaReaderToTopic = c.schemaReaderToTopic) (hback : Backed (ts', c')) :
    Routed name (ts', c') := by
  refine ⟨hback, ?_, ?_⟩
  · dsimp only
    rw [hsame.subscriberId, hsame.readerId, hsame.schemaReaderId, hschema]
    exact h.apart
  · dsimp only
    rw [hsame.hasReader, hsame.readerId, hdata]
    exact h.data

/-- While the ids fit the wire, a new one is not in use. -/
theorem Write.routed {y : Local C Callback} (hw : Write name x y)
    (hfit : y.2.nextId ≤ 2 ^ 12) (h : Routed name x) : Routed name y := by
  have hback := hw.backed h.backed
  cases hw with
  | @reader ts c a unset asked =>
    have hnew : c.nextId % 2 ^ 16 = c.nextId := by
      have : c.nextId + 1 ≤ 2 ^ 12 := hfit
      omega
    refine ⟨hback, fun _ => ⟨?_, ?_⟩, fun hopen => absurd unset (h.backed.valid hopen)⟩
    · by_contra hsome
      have := h.backed.keys _ hsome
      rw [show (c.object .datareader).id = c.nextId from hnew] at this
      exact Nat.lt_irrefl _ this
    · intro hval
      have := h.backed.schema hval
      rw [show (c.object .datareader).id = c.nextId from hnew]
      exact Nat.ne_of_lt this
  | @schemaReader ts c a asked =>
    have hnew : c.nextId % 2 ^ 16 = c.nextId := by
      have : c.nextId + 1 ≤ 2 ^ 12 := hfit
      omega
    refine ⟨hback, fun hval => ⟨(h.apart hval).1, fun _ => ?_⟩, h.data⟩
    have := h.backed.handed hval
    rw [show (c.object .datareader).id = c.nextId from hnew]
    exact Nat.ne_of_gt this
  | @schemaRoute ts c set =>
    refine ⟨hback, fun hval => ⟨?_, (h.apart hval).2⟩, h.data⟩
    have hne := (h.apart hval).2 (by rw [set]; nofun)
    exact (Function.update_of_ne hne.symm ..).trans (h.apart hval).1
  | @closeSchemaReader ts c set =>
    refine ⟨hback, fun hval => ⟨?_, fun hschema => absurd rfl hschema⟩, h.data⟩
    exact (Function.update_of_ne ((h.apart hval).2 set).symm ..).trans (h.apart hval).1
  | channel => exact ⟨hback, h.apart, fun _ => Function.update_self ..⟩
  | closeReader => exact ⟨hback, h.apart, nofun⟩
  | request same _ => exact h.same same rfl rfl hback
  | quiet same routes =>
    exact h.same same routes.readerToTopic routes.schemaReaderToTopic hback
  | _ => exact ⟨hback, h.apart, h.data⟩

theorem Writes.routed {x₀ : Local C Callback} (hws : Writes name x₀ x)
    (h : Routed name x₀) : x.2.nextId ≤ 2 ^ 12 → Routed name x := by
  induction hws with
  | refl => exact fun _ => h
  | tail _ hw ih => exact fun hfit => hw.routed hfit (ih (Nat.le_trans hw.since.1 hfit))

/-- A sample on the reader of a topic with a callback. -/
theorem onData_delivers {callback : Callback} {envelope : Envelope} {body : Bytes}
    {ts : TopicState C.Schema Callback} (hchn : ts.channel = some callback)
    (hbody : deserializeEnvelopeFrom true body = .ok envelope) :
    (∃ schema, (s.onData name ts body).client.delivered =
        s.client.delivered ++ [⟨callback, some schema, envelope⟩]) ∨
      ((s.onData name ts body).topic name).channel = some callback ∧
        ((s.onData name ts body).topic name).pending = ts.pending ++ [envelope] := by
  unfold onData
  rw [hchn, hbody]
  dsimp only
  cases ts.sharedSchema with
  | none =>
    right
    simp [topic]
  | some schema => exact .inl ⟨schema, rfl⟩

/-- What is routed and has a callback gets there. -/
theorem delivers_of_routed {callback : Callback} (h : Routed name (s.on name))
    (hfit : s.client.nextId ≤ 2 ^ 12) (hopen : (s.topic name).hasReader = true)
    (hchn : (s.topic name).channel = some callback) : Delivers s name callback := by
  intro payload envelope s' henv hs'
  have hval : (s.topic name).subscriberId.type ≠ .invalid := h.backed.valid hopen
  have hid : (s.topic name).readerId.id % 2 ^ 12 = (s.topic name).readerId.id :=
    Nat.mod_eq_of_lt (Nat.lt_of_lt_of_le (h.backed.handed hval) hfit)
  have hnone : s.client.schemaReaderToTopic (s.topic name).readerId.id = none := (h.apart hval).1
  have hroute : s.client.readerToTopic (s.topic name).readerId.id = some name := h.data hopen
  have hts : s.topics name = some (s.topic name) := by
    unfold topic at hchn ⊢
    cases hn : s.topics name with
    | none =>
      rw [hn] at hchn
      cases hchn
    | some ts => rfl
  unfold carried at henv
  unfold onTopic at hs'
  rw [hid, hnone, hroute] at hs'
  dsimp only at hs'
  rw [hts] at hs'
  split at henv
  · cases henv
  · next hlong =>
    rw [if_neg hlong] at hs'
    subst hs'
    refine onData_delivers hchn ?_
    cases hbody : deserializeEnvelopeFrom true ((payload.drop 4).take (ofLe (payload.take 4))) with
    | error _ =>
      rw [hbody] at henv
      cases henv
    | ok _ =>
      rw [hbody] at henv
      cases henv
      rfl

/-- From a state that remembers `before`, a history that subscribes no topic again is
served. -/
theorem served_of_remembered (hag : agent.Confirms) {before es : List (Event C Callback)}
    (hback : ∀ name, Backed (s.on name)) (hrem : Remembered before s)
    (hfit : (play agent maxPayloadBytes s es).client.nextId ≤ 2 ^ 12)
    (hnev : ¬Resubscribes (before ++ es)) : Served agent maxPayloadBytes s es := by
  induction es generalizing before s with
  | nil => trivial
  | cons e es ih =>
    have hback' : ∀ name, Backed ((step agent maxPayloadBytes e s).2.on name) :=
      backed_step e hback
    refine ⟨?_, ?_⟩
    · intro segments callback name hcall htop hok
      have hsub : Subscribes name e := hcall ▸ ⟨rfl, htop⟩
      cases step_moved hag e s name with
      | same reader refused _ => exact absurd hok (refused hsub).2
      | closed call _ => cases e <;> first | exact hsub.elim | exact call.elim
      | opened _ _ hcall' _ _ spec =>
        cases hcall.symm.trans hcall'
        by_cases hval : (s.topic name).subscriberId.type = .invalid
        · have hfit' := Nat.le_trans (nextId_le_play es _) hfit
          have hrouted : Routed name (s.on name) := ⟨hback name, fun h => absurd hval h,
            fun hopen => absurd hval ((hback name).valid hopen)⟩
          exact ⟨(hback' name).typed spec.reader.valid, spec.reader.fresh hval hag,
            delivers_of_routed (Writes.routed spec.writes hrouted hfit') hfit' spec.hasReader
              spec.channel⟩
        · -- the topic has been subscribed and unsubscribed, and this is the third call
          obtain ⟨a, b, hab, hsa, hub⟩ := (hrem name hval).2 spec.closed
          refine absurd ⟨name, a, b, e, ?_, hsa, hub, hsub⟩ hnev
          exact hab.append (singleton_sublist.mpr mem_cons_self)
    · refine ih hback' (remembered_step hag hrem e) hfit ?_
      rwa [append_assoc]

/-! ## Why a second subscription is lost -/

variable {es : List (Event C Callback)}

/-- No id has been used twice. -/
structure Fresh (s : Impl C.Schema Callback) : Prop where
  backed : ∀ name, Backed (s.on name)
  /-- Without a reader there is nothing under its id. -/
  off : ∀ name, (s.topic name).subscriberId.type ≠ .invalid →
    (s.topic name).hasReader = false → s.client.entities (s.topic name).readerId.raw ≠ true

theorem fresh_init : Fresh ({} : Impl C.Schema Callback) := ⟨backed_init, fun _ h => absurd rfl h⟩

/-- While the ids fit the wire, nothing new comes to sit under an old id. -/
theorem not_live_of_since {c' : Client C.Schema Callback} {id : ObjectId} (h : Since c c')
    (hfit : c'.nextId ≤ 2 ^ 12) (hold : id.id < c.nextId) (hoff : c.entities id.raw ≠ true) :
    c'.entities id.raw ≠ true := by
  intro hon
  rcases h.2 _ hon with hbef | ⟨n, _, _, heq⟩
  · exact hoff hbef
  · have hraw : id.id % 2 ^ 12 = n % 2 ^ 12 := heq
    omega

/-- A subscriber id stays valid. -/
theorem valid_step (hag : agent.Confirms)
    (h : (s.topic name).subscriberId.type ≠ .invalid) (e : Event C Callback) :
    ((step agent maxPayloadBytes e s).2.topic name).subscriberId.type ≠ .invalid := by
  cases step_moved hag e s name with
  | same reader _ _ => rwa [reader.subscriberId]
  | opened _ _ _ _ _ spec => exact spec.reader.valid
  | closed _ spec => exact fun hinv => h (spec.subscriberId ▸ hinv)

theorem fresh_step (hag : agent.Confirms) (h : Fresh s) {e : Event C Callback}
    (hfit : (play agent maxPayloadBytes s (e :: es)).client.nextId ≤ 2 ^ 12) :
    Fresh (step agent maxPayloadBytes e s).2 := by
  replace hfit := Nat.le_trans (nextId_le_play es _) hfit
  have hsince : Since s.client (step agent maxPayloadBytes e s).2.client := step_since e s
  refine ⟨backed_step e h.backed, ?_⟩
  intro name hval hcl
  cases step_moved hag e s name with
  | same reader _ _ =>
    rw [reader.subscriberId] at hval
    rw [reader.hasReader] at hcl
    rw [reader.readerId]
    exact not_live_of_since hsince hfit ((h.backed name).handed hval) (h.off name hval hcl)
  | opened _ _ _ _ _ spec => exact nomatch hcl.symm.trans spec.hasReader
  | closed _ spec =>
    have hsub : ((step agent maxPayloadBytes e s).2.topic name).subscriberId =
      (s.topic name).subscriberId := spec.subscriberId
    have hrdr : ((step agent maxPayloadBytes e s).2.topic name).readerId =
      (s.topic name).readerId := spec.readerId
    rw [hsub] at hval
    by_cases hrdg : (s.topic name).hasReader = true
    · exact Bool.eq_false_iff.mp (spec.gone hrdg)
    · rw [hrdr]
      exact not_live_of_since hsince hfit ((h.backed name).handed hval)
        (h.off name hval (Bool.eq_false_iff.mpr hrdg))

section Lost

variable (hag : agent.Confirms) (hfre : Fresh s)
  (hfit : (play agent maxPayloadBytes s es).client.nextId ≤ 2 ^ 12)

include hag hfre hfit

/-- The next `Subscribe` of a topic that has a subscriber id and no reader is not served. -/
theorem lost_of_closed (hval : (s.topic name).subscriberId.type ≠ .invalid)
    (hcl : (s.topic name).hasReader = false) (hc : ∃ c ∈ es, Subscribes name c) :
    ¬Served agent maxPayloadBytes s es := by
  intro hsrv
  induction es generalizing s with
  | nil =>
    obtain ⟨c, hc, _⟩ := hc
    cases hc
  | cons e es ih =>
    have hlat := ih (fresh_step hag hfre hfit) hfit (valid_step hag hval e)
    -- a call of the topic's that is no `Subscribe` leaves it closed
    have hrest : ¬Subscribes name e → ∃ c ∈ es, Subscribes name c := by
      intro hnot
      obtain ⟨c, hmem, hsub⟩ := hc
      rcases mem_cons.mp hmem with h | h
      · exact absurd (h ▸ hsub) hnot
      · exact ⟨c, h, hsub⟩
    cases step_moved hag e s name with
    | same reader refused _ =>
      have hnot : ¬Subscribes name e := by
        intro hsub
        rw [(refused hsub).1] at hcl
        cases hcl
      exact hlat (reader.hasReader.trans hcl) (hrest hnot) hsrv.2
    | closed call spec =>
      have hnot : ¬Subscribes name e := by
        intro hsub
        cases e <;> first | exact hsub.elim | exact call.elim
      exact hlat spec.hasReader (hrest hnot) hsrv.2
    | opened _ _ call topic returned spec =>
      have hlive := (hsrv.1 _ _ name call topic returned).entity
      rw [show ((step agent maxPayloadBytes e s).2.topic name).readerId = _ from
        spec.reader.cached hval] at hlive
      exact not_live_of_since (step_since e s) (Nat.le_trans (nextId_le_play es _) hfit)
        ((hfre.backed name).handed hval) (hfre.off name hval hcl) hlive

/-- As before, for a topic that is unsubscribed first. -/
theorem lost_of_opened (hval : (s.topic name).subscriberId.type ≠ .invalid)
    (h : ∃ b c, List.Sublist [b, c] es ∧ Unsubscribes name b ∧ Subscribes name c) :
    ¬Served agent maxPayloadBytes s es := by
  intro hsrv
  induction es generalizing s with
  | nil =>
    obtain ⟨b, c, hsub, _⟩ := h
    cases hsub
  | cons e es ih =>
    have hfre' := fresh_step hag hfre hfit
    have hval' : ((step agent maxPayloadBytes e s).2.topic name).subscriberId.type ≠
        .invalid := valid_step hag hval e
    obtain ⟨b, c, hsub, hub, hsc⟩ := h
    cases hsub with
    | cons _ hsub => exact ih hfre' hfit hval' ⟨b, c, hsub, hub, hsc⟩ hsrv.2
    | cons_cons _ hsub =>
      have hcl : ((step agent maxPayloadBytes e s).2.topic name).hasReader = false := by
        cases step_moved hag e s name with
        | same _ _ idle => exact absurd hub idle
        | opened _ _ call _ _ _ =>
          subst call
          exact hub.elim
        | closed _ spec => exact spec.hasReader
      exact lost_of_closed hag hfre' hfit hval' hcl ⟨c, singleton_sublist.mp hsub, hsc⟩ hsrv.2

/-- As before, for a topic that is subscribed before that. -/
theorem lost_of_resubscribes (h : ∃ a b c, List.Sublist [a, b, c] es ∧ Subscribes name a ∧
    Unsubscribes name b ∧ Subscribes name c) : ¬Served agent maxPayloadBytes s es := by
  intro hsrv
  induction es generalizing s with
  | nil =>
    obtain ⟨a, b, c, hsub, _⟩ := h
    cases hsub
  | cons e es ih =>
    have hfre' := fresh_step hag hfre hfit
    obtain ⟨a, b, c, hsub, hsa, hub, hsc⟩ := h
    cases hsub with
    | cons _ hsub => exact ih hfre' hfit ⟨a, b, c, hsub, hsa, hub, hsc⟩ hsrv.2
    | cons_cons _ hsub =>
      -- after a call of `Subscribe`, refused or not, the topic has a subscriber id
      have hval : ((step agent maxPayloadBytes e s).2.topic name).subscriberId.type ≠
          .invalid := by
        cases step_moved hag e s name with
        | same reader refused _ =>
          exact valid_step hag ((hfre.backed name).valid (refused hsa).1) e
        | opened _ _ _ _ _ spec => exact spec.reader.valid
        | closed call _ => cases e <;> first | exact hsa.elim | exact call.elim
      exact lost_of_opened hag hfre' hfit hval ⟨b, c, hsub, hub, hsc⟩ hsrv.2

end Lost

/-- **Subscribing again.** Under an Agent that confirms every request, and as long as the ids
fit the wire, every `Subscribe` of a history that returns leaves a reader on the Agent whose
samples reach the callback exactly when no topic is subscribed again. -/
theorem subscribe_served (hagent : agent.Confirms) (es : List (Event C Callback))
    (hfit : (play agent maxPayloadBytes {} es).client.nextId ≤ 2 ^ 12) :
    Served agent maxPayloadBytes {} es ↔ ¬Resubscribes es := by
  refine ⟨?_, ?_⟩
  · intro hserved hagain
    obtain ⟨_, hagain⟩ := hagain
    exact lost_of_resubscribes hagent fresh_init hfit hagain hserved
  · intro hnever
    exact served_of_remembered hagent backed_init remembered_init hfit hnever

/-! ## One topic -/

def subscribeA : Event oneSchema Unit := .subscribe false [[97]] ()

def unsubscribeA : Event oneSchema Unit := .unsubscribe false [[97]]

theorem subscribe_served_once : Served willing 65536 {} [subscribeA, unsubscribeA] := by
  refine (subscribe_served willing_confirms [subscribeA, unsubscribeA] (by decide +kernel)).mpr ?_
  intro h
  obtain ⟨_, _, _, _, hsub, _⟩ := h
  exact absurd hsub.length_le (by simp)

/-- Subscribed, unsubscribed and subscribed again: all three calls return, and the Agent has
no reader. -/
theorem resubscribed_without_reader : (step willing 65536 subscribeA {}).1 = .ok () ∧
    (step willing 65536 unsubscribeA (play willing 65536 {} [subscribeA])).1 = .ok () ∧
    (step willing 65536 subscribeA
      (play willing 65536 {} [subscribeA, unsubscribeA])).1 = .ok () ∧
    (play willing 65536 {} [subscribeA, unsubscribeA, subscribeA]).client.entities
      ((play willing 65536 {} [subscribeA, unsubscribeA, subscribeA]).topic
        [97]).readerId.raw = false := by
  decide +kernel

end Fletcher.Xrce
