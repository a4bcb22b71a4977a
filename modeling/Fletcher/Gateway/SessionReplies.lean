import Fletcher.Gateway.Session

/-!
# One reply for every frame

A handler answers a frame by queueing one text frame: the reply of its action, or the
text of the exception the action ended with. Building that second reply is outside the
`try`, and the library throws on a text that is not UTF-8, so an exception whose text
quotes bytes of the client may escape.

`Clean` says of a frame, in the state it meets, that every text it can be refused with
is UTF-8. A run answers each of its frames, in order, exactly when each is clean.
-/

namespace Fletcher.Gateway

open Lib Utf8 Fletcher.Core PubSub

variable {topic : Bytes}

variable {L : JsonLib} {P : Provider}

/-! ## Texts -/

/-- What is thrown has a text that is UTF-8. -/
def Speaks {α : Type} (r : Except Text α) : Prop := ∀ text, r = .error text → valid text = true

@[simp] theorem speaks_ok {α : Type} (a : α) : Speaks (.ok a) := by
  intro _ h
  cases h

@[simp] theorem speaks_error {α : Type} {text : Text} :
    Speaks (.error text : Except Text α) ↔ valid text = true := by
  constructor
  · intro h
    exact h text rfl
  · intro hv t h
    cases h
    exact hv

@[simp] theorem speaks_map {α β : Type} {r : Except Text α} {f : α → β} :
    Speaks (r.map f) ↔ Speaks r := by
  cases r with
  | error _ => simp [Except.map]
  | ok a => simp [Except.map]

theorem speaks_bind {α β : Type} {r : Except Text α} {f : α → Except Text β} :
    Speaks (r.bind f) ↔ Speaks r ∧ ∀ a, r = .ok a → Speaks (f a) := by
  cases r with
  | error _ => simp [Except.bind]
  | ok a => simp [Except.bind]

/-- What the libraries document: the texts they build themselves are UTF-8. The text of
a parse error quotes what was read, and is not among them; nor are the provider's. -/
structure Documented (L : JsonLib) (P : Provider) : Prop where
  atText : ∀ j key, valid (L.atText j key) = true
  getText : ∀ j, valid (L.getText j) = true
  dumpText : ∀ j, valid (L.dumpText j) = true
  describe : ∀ schema, Speaks (P.describe schema)

/-! ## Clean frames -/

/-- The segment a refusal of the topic quotes is UTF-8. -/
def CleanTopic (topic : Bytes) : Prop :=
  ∀ seg, quoted (splitTopic topic) = some seg → valid seg = true

/-- A request no part of which is refused with a text that is not UTF-8. -/
def CleanRequest (L : JsonLib) (sh : Shared P) : Request → Prop
  | .createTopic msg =>
    ∀ topic schema, L.stringAt msg "topic" = .ok topic →
      schemaOfMessage (P := P) msg = .ok schema →
      CleanTopic topic ∧ ∀ key, joinSegments (splitTopic topic) = .ok key →
        match sh.topics.lookup key with
        | some stored =>
          (DeclaredSchema.encode P.encodeIpc schema).conflictsWith stored = true →
            valid key = true
        | none => Speaks (P.createTopic sh.provider key schema).2
  | .subscribe topic =>
    CleanTopic topic ∧ ∀ key, joinSegments (splitTopic topic) = .ok key →
      sh.providerSubscribed.contains key = false → Speaks (P.subscribe sh.provider key).2
  | .unsubscribe id =>
    ∀ key, sh.topicOf id = some key → sh.closesTopic id key = true →
      Speaks (P.unsubscribe sh.provider key).2
  | .listTopics | .unknown _ => True

/-- A frame no part of whose handling is refused with a text that is not UTF-8. -/
def Clean (L : JsonLib) (sh : Shared P) : Frame → Prop
  | .text data =>
    Speaks (L.parse data) ∧ ∀ request, parseRequest L data = .ok request →
      CleanRequest L sh request
  | .binary data =>
    ∀ topic rest envelope, parsePublishFrame data = .ok (topic, rest) →
      deserializeEnvelope rest = .ok envelope →
      CleanTopic topic ∧ ∀ key, joinSegments (splitTopic topic) = .ok key →
        Speaks (P.publish sh.provider key envelope).2

theorem speaks_joinSegments :
    Speaks (joinSegments (splitTopic topic)) ↔ CleanTopic topic := by
  cases h : joinSegments (splitTopic topic) with
  | error _ =>
    rw [speaks_error, joinSegments_text h]
    exact Iff.rfl
  | ok key =>
    refine iff_of_true (speaks_ok key) ?_
    intro _ hseg
    rw [quoted_of_ok h] at hseg
    cases hseg

/-! ### The actions -/

/-- A text the schema of a `create_topic` message is refused with is the gateway's own. -/
theorem speaks_wireTypeToNanoarrowType (wt : Int) : Speaks (wireTypeToNanoarrowType wt) := by
  unfold wireTypeToNanoarrowType
  split
  case h_16 =>
    rw [speaks_error]
    exact valid_append (valid_append (by decide) (valid_numeral _ _)) (by decide)
  all_goals exact speaks_ok _

theorem speaks_childOfJson (index : Nat) (f : Json) : Speaks (childOfJson index f) := by
  have hmis : ∀ what : String, valid (ascii what) = true →
      Speaks (.error (ascii "create_topic: field at index " ++ decimal index ++ ascii what) :
        Except Text ArrowSchema) := by
    intro what hwhat
    rw [speaks_error]
    exact valid_append (valid_append (by decide) (valid_numeral _ _)) hwhat
  unfold childOfJson
  split
  · split
    · exact speaks_bind.mpr ⟨speaks_wireTypeToNanoarrowType _, fun _ _ => speaks_ok _⟩
    · exact hmis _ (by decide)
  · exact hmis _ (by decide)

theorem speaks_childrenOfJson :
    ∀ (index : Nat) (fs : List Json), Speaks (childrenOfJson index fs)
  | _, [] => speaks_ok []
  | index, f :: fs =>
    speaks_bind.mpr ⟨speaks_childOfJson index f, fun _ _ =>
      speaks_bind.mpr ⟨speaks_childrenOfJson (index + 1) fs, fun _ _ => speaks_ok _⟩⟩

theorem speaks_schemaOfMessage (msg : Json) : Speaks (schemaOfMessage (P := P) msg) := by
  unfold schemaOfMessage
  split
  · exact speaks_ok none
  · rw [speaks_map]
    unfold buildArrowSchemaFromJson
    split
    · exact speaks_bind.mpr ⟨speaks_childrenOfJson 0 _, fun _ _ => speaks_ok _⟩
    · rw [speaks_error]
      decide

theorem speaks_stringAt (hd : Documented L P) (j : Json) (key : String) :
    Speaks (L.stringAt j key) := by
  refine speaks_bind.mpr ⟨?_, ?_⟩
  · unfold JsonLib.atKey
    split
    · exact speaks_ok _
    · exact speaks_error.mpr (hd.atText j key)
  · intro v _
    unfold JsonLib.getString
    split
    · exact speaks_ok _
    · exact speaks_error.mpr (hd.getText v)

theorem speaks_stoull (s : Bytes) : Speaks (stoull s) := by
  unfold stoull
  dsimp only
  split
  · exact speaks_error.mpr (by decide)
  · split
    · exact speaks_error.mpr (by decide)
    · exact speaks_ok _

theorem speaks_parseRequest (hd : Documented L P) (data : Bytes) :
    Speaks (parseRequest L data) ↔ Speaks (L.parse data) := by
  refine ⟨fun h => (speaks_bind.mp h).1, fun h => speaks_bind.mpr ⟨h, ?_⟩⟩
  intro j _
  refine speaks_bind.mpr ⟨speaks_stringAt hd j _, ?_⟩
  intro _ _
  split
  · exact speaks_ok _
  split
  · exact speaks_bind.mpr ⟨speaks_stringAt hd j _, fun _ _ => speaks_ok _⟩
  split
  · exact speaks_bind.mpr ⟨speaks_stringAt hd j _, fun subId _ =>
      speaks_bind.mpr ⟨speaks_stoull subId, fun _ _ => speaks_ok _⟩⟩
  split
  · exact speaks_ok _
  · exact speaks_ok _

/-! ### The subscriber's and the publisher's calls -/

theorem speaks_createTopic {sh : Shared P} {schema : Option P.Schema} :
    Speaks (sh.createTopic (splitTopic topic) schema).2 ↔
      CleanTopic topic ∧ ∀ key, joinSegments (splitTopic topic) = .ok key →
        match sh.topics.lookup key with
        | some stored =>
          (DeclaredSchema.encode P.encodeIpc schema).conflictsWith stored = true → valid key = true
        | none => Speaks (P.createTopic sh.provider key schema).2 := by
  rw [← speaks_joinSegments]
  unfold Shared.createTopic
  cases joinSegments (splitTopic topic) with
  | error _ => simp [Shared.throws]
  | ok key =>
    simp only [speaks_ok, true_and, Except.ok.injEq, forall_eq']
    cases hsto : sh.topics.lookup key with
    | some stored =>
      by_cases hc : (DeclaredSchema.encode P.encodeIpc schema).conflictsWith stored = true
      · have htext : valid (ascii
            "Publisher: topic already declared with a conflicting schema: ") = true := by decide
        simp [hc, Shared.throws, valid_append_iff htext]
      · simp [hc, Shared.returns]
    | none =>
      rcases P.createTopic sh.provider key schema with ⟨provider, _ | _⟩
      · exact Iff.rfl
      · exact Iff.rfl

theorem speaks_publish {sh : Shared P} {envelope : Envelope} :
    Speaks (sh.publish (splitTopic topic) envelope).2 ↔
      CleanTopic topic ∧ ∀ key, joinSegments (splitTopic topic) = .ok key →
        Speaks (P.publish sh.provider key envelope).2 := by
  rw [← speaks_joinSegments]
  unfold Shared.publish
  cases joinSegments (splitTopic topic) with
  | error _ => simp [Shared.throws]
  | ok key => simp

theorem speaks_subscribe {sh : Shared P} :
    Speaks (sh.subscribe (splitTopic topic)).2 ↔
      CleanTopic topic ∧ ∀ key, joinSegments (splitTopic topic) = .ok key →
        sh.providerSubscribed.contains key = false → Speaks (P.subscribe sh.provider key).2 := by
  rw [← speaks_joinSegments]
  unfold Shared.subscribe
  cases joinSegments (splitTopic topic) with
  | error _ => simp [Shared.throws]
  | ok key =>
    simp only [speaks_ok, true_and, Except.ok.injEq, forall_eq']
    by_cases hc : sh.providerSubscribed.contains key = true
    · simp only [hc, if_true, Shared.returns, speaks_ok, Bool.true_eq_false, false_implies]
    · simp only [hc, Bool.false_eq_true, if_false, forall_const]
      rcases P.subscribe sh.provider key with ⟨provider, _ | _⟩
      · simp
      · simp

theorem speaks_unsubscribe {sh : Shared P} {id : Nat} : Speaks (sh.unsubscribe id).2 ↔
      ∀ key, sh.topicOf id = some key → sh.closesTopic id key = true →
        Speaks (P.unsubscribe sh.provider key).2 := by
  unfold Shared.unsubscribe
  cases sh.topicOf id with
  | none => simp [Shared.returns]
  | some key =>
    simp only [Option.some.injEq, forall_eq']
    by_cases hc : sh.closesTopic id key = true
    · simp [hc]
    · simp [hc, Shared.returns]

/-! ### The actions -/

theorem speaks_onCreateTopic (hd : Documented L P) (sh : Shared P) (se : Session) (msg : Json) :
    Speaks (onCreateTopic L sh se msg).result ↔ CleanRequest L sh (.createTopic msg) := by
  unfold onCreateTopic
  have htop := speaks_stringAt hd msg "topic"
  cases ht : L.stringAt msg "topic" with
  | error text =>
    rw [ht, speaks_error] at htop
    refine iff_of_true (speaks_error.mpr htop) ?_
    intro topic _ htop'
    rw [ht] at htop'
    cases htop'
  | ok topic =>
    have hsch := speaks_schemaOfMessage (P := P) msg
    cases hs : schemaOfMessage (P := P) msg with
    | error text =>
      rw [hs, speaks_error] at hsch
      refine iff_of_true (speaks_error.mpr hsch) ?_
      intro _ schema _ hsch'
      rw [hs] at hsch'
      cases hsch'
    | ok schema =>
      simp only [speaks_map]
      rw [speaks_createTopic]
      constructor
      · intro h _ _ htop' hsch'
        rw [ht] at htop'
        rw [hs] at hsch'
        cases htop'
        cases hsch'
        exact h
      · intro h
        exact h topic schema ht hs

/-- The description of the schema that has arrived is the library's. -/
theorem speaks_schemaMembers (hd : Documented L P) (schema : Option P.Schema) :
    Speaks (schemaMembers schema) := by
  unfold schemaMembers
  split
  · exact speaks_ok []
  · rw [speaks_map]
    exact hd.describe _

theorem speaks_onSubscribe (hd : Documented L P) (sh : Shared P) (se : Session) (topic : Bytes) :
    Speaks (onSubscribe sh se topic).result ↔ CleanRequest L sh (.subscribe topic) := by
  refine Iff.trans ?_ speaks_subscribe
  unfold onSubscribe
  rcases sh.subscribe (splitTopic topic) with ⟨_, _ | ⟨_, _⟩⟩
  · simp
  · simp only [speaks_map, speaks_ok, iff_true]
    exact speaks_schemaMembers hd _

theorem speaks_onUnsubscribe (sh : Shared P) (se : Session) (id : Nat) :
    Speaks (onUnsubscribe sh se id).result ↔ CleanRequest L sh (.unsubscribe id) := by
  refine Iff.trans ?_ speaks_unsubscribe
  unfold onUnsubscribe
  rcases sh.unsubscribe id with ⟨_, _ | _⟩
  · simp
  · simp

theorem speaks_perform (hd : Documented L P) (sh : Shared P) (se : Session) (request : Request) :
    Speaks (perform L sh se request).result ↔ CleanRequest L sh request := by
  cases request with
  | createTopic msg => exact speaks_onCreateTopic hd sh se msg
  | subscribe topic => exact speaks_onSubscribe hd sh se topic
  | unsubscribe id => exact speaks_onUnsubscribe sh se id
  | listTopics => exact iff_of_true (speaks_ok _) trivial
  | unknown _ => exact iff_of_true (speaks_ok _) trivial

theorem speaks_onPublish (sh : Shared P) (se : Session) (data : Bytes) :
    Speaks (onPublish sh se data).result ↔ Clean L sh (.binary data) := by
  unfold onPublish
  have hcln : Clean L sh (.binary data) ↔ ∀ topic rest envelope,
      parsePublishFrame data = .ok (topic, rest) → deserializeEnvelope rest = .ok envelope →
        Speaks (sh.publish (splitTopic topic) envelope).2 := by
    simp only [speaks_publish]
    exact Iff.rfl
  rw [hcln]
  cases hpar : parsePublishFrame data with
  | error _ =>
    refine iff_of_true ?_ (by simp)
    rw [speaks_error]
    unfold parsePublishFrame at hpar
    dsimp only at hpar
    split_ifs at hpar <;> cases hpar <;> decide
  | ok p =>
    obtain ⟨topic, rest⟩ := p
    dsimp only
    cases henv : deserializeEnvelope rest with
    | error e =>
      refine iff_of_true ?_ ?_
      · obtain ⟨what, hwhat, rfl⟩ := deserializeEnvelope_error henv
        have hall : ∀ what ∈ Envelope.refusals, valid (ascii what) = true := by decide
        exact speaks_error.mpr (hall what hwhat)
      · intro _ _ envelope h henv'
        cases h
        rw [henv] at henv'
        cases henv'
    | ok envelope =>
      simp only [speaks_map]
      constructor
      · intro h _ _ _ hp henv'
        cases hp
        rw [henv] at henv'
        cases henv'
        exact h
      · intro h
        exact h topic rest envelope rfl henv

/-- A handler's action ends with a text that is UTF-8, if with one at all, exactly when
the frame is clean. -/
theorem speaks_act (hd : Documented L P) (sh : Shared P) (se : Session) (f : Frame) :
    Speaks (act L sh se f).result ↔ Clean L sh f := by
  cases f with
  | text data =>
    refine Iff.trans ?_ (and_congr_left' (speaks_parseRequest hd data))
    rw [act]
    cases parseRequest L data with
    | error text => simp
    | ok _ => simp [speaks_perform hd]
  | binary data => exact speaks_onPublish sh se data

/-! ## Answers -/

theorem dump_errorReply (text : Text) : L.dump (errorReply text) =
      if valid text then .ok (L.render (errorReply text))
      else .error (L.dumpText (errorReply text)) := by
  have hwf : (errorReply text).wellFormed = valid text := by
    have htype : valid (ascii "type") = true := by decide
    have herr : valid (ascii "error") = true := by decide
    have hmsg : valid (ascii "message") = true := by decide
    simp [errorReply, reply, Json.wellFormed, Json.membersWellFormed, htype, herr, hmsg]
  rw [JsonLib.dump, hwf]

/-- The handler has an answer exactly when what its action throws, if anything, is UTF-8.
A reply that cannot be rendered is refused inside the `try`, with a text of the library. -/
theorem answer_isOk_iff (hd : Documented L P) (o : Outcome P) :
    (answer L o).isOk = true ↔ Speaks o.result := by
  unfold answer attempt
  cases o.result with
  | error text =>
    simp only [Except.bind, dump_errorReply, speaks_error]
    by_cases hv : valid text = true
    · simp [hv, Except.isOk, Except.toBool]
    · simp [hv, Except.isOk, Except.toBool]
  | ok j =>
    refine iff_of_true ?_ (speaks_ok j)
    simp only [Except.bind]
    by_cases hj : j.wellFormed = true
    · simp [JsonLib.dump, hj, Except.isOk, Except.toBool]
    · have hdump : L.dump j = .error (L.dumpText j) := by simp [JsonLib.dump, hj]
      rw [hdump]
      simp [dump_errorReply, hd.dumpText j, Except.isOk, Except.toBool]

theorem answer_act_isOk_iff (hd : Documented L P) (sh : Shared P) (se : Session) (f : Frame) :
    (answer L (act L sh se f)).isOk = true ↔ Clean L sh f := by
  rw [answer_isOk_iff hd, speaks_act hd]

/-! ## Runs -/

/-- What session `k` queues as a reply when the event happens. -/
def repliesAt (L : JsonLib) (w : World P) (label : Nat × Event) (k : Nat) : List Bytes :=
  match label with
  | (i, .frame f) =>
    if i = k then (answer L (act L w.shared (w.sessions i) f)).toOption.toList else []
  | _ => []

/-- The replies session `k` owes for a run, one frame after the other. -/
def repliesTo (L : JsonLib) : World P → List (Nat × Event) → Nat → List Bytes
  | _, [], _ => []
  | w, label :: labels, k =>
    repliesAt L w label k ++
      match next L w label with
      | some w' => repliesTo L w' labels k
      | none => []

def isFrameOf (k : Nat) : Nat × Event → Bool
  | (i, .frame _) => i == k
  | _ => false

/-- How many frames session `k` receives. -/
def received (k : Nat) (labels : List (Nat × Event)) : Nat := labels.countP (isFrameOf k)

/-- Every frame of the run is clean in the state it meets. -/
def CleanRun (L : JsonLib) : World P → List (Nat × Event) → Prop
  | _, [] => True
  | w, label :: labels =>
    (∀ f, label.2 = .frame f → Clean L w.shared f) ∧
      ∀ w', next L w label = some w' → CleanRun L w' labels

variable {w w' : World P} {label : Nat × Event} {labels : List (Nat × Event)}

theorem replies_send_text (se : Session) (bytes : Bytes) :
    (se.send ⟨bytes, true⟩).replies = se.replies ++ [bytes] := by
  simp [Session.send, Session.replies]

theorem replies_send_binary (se : Session) (data : Bytes) :
    (se.send ⟨data, false⟩).replies = se.replies := by
  simp [Session.send, Session.replies]

theorem replies_written (se : Session) : se.written.replies = se.replies := by
  unfold Session.written
  split
  · rfl
  · rfl

theorem replies_act (sh : Shared P) (se : Session) (f : Frame) :
    (act L sh se f).session.replies = se.replies := by
  obtain ⟨_, h⟩ := keepsSession_act (L := L) sh se f
  rw [h]
  rfl

/-- One event queues for each session the replies it owes, and no other. -/
theorem replies_next (h : next L w label = some w') (k : Nat) :
    (w'.sessions k).replies = (w.sessions k).replies ++ repliesAt L w label k := by
  obtain ⟨i, e⟩ := label
  obtain ⟨-, hdid⟩ := next_eq_some h
  by_cases hk : k = i
  · subst hk
    cases hdid with
    | frame f hrdg =>
      cases ha : answer L (act L w.shared (w.sessions k) f) with
      | ok bytes =>
        simp [handle_of_ok ha, repliesAt, ha, replies_send_text, replies_act, Except.toOption]
      | error text => simp [handle_of_error ha, repliesAt, ha, replies_act, Except.toOption]
    | deliver data => simp [repliesAt, replies_send_binary]
    | written => simp [repliesAt, replies_written]
    | closed hrdg => simp [repliesAt, hangUp, Session.replies]
  · have hik : i ≠ k := Ne.symm hk
    cases hdid with
    | frame f hrdg =>
      cases ha : answer L (act L w.shared (w.sessions i) f) with
      | ok bytes => simp [handle_of_ok ha, repliesAt, put_other _ hk, hik]
      | error text => simp [handle_of_error ha, repliesAt, put_other _ hk, hik]
    | deliver data => simp [repliesAt, put_other _ hk]
    | written => simp [repliesAt, put_other _ hk]
    | closed hrdg => simp [repliesAt, hangUp, put_other _ hk]

/-- The process survives an event unless a frame that is not clean arrives. -/
theorem crashed_next (hd : Documented L P) (h : next L w label = some w') :
    w'.crashed = none ↔ ∀ f, label.2 = .frame f → Clean L w.shared f := by
  obtain ⟨i, e⟩ := label
  obtain ⟨halive, hdid⟩ := next_eq_some h
  cases hdid with
  | frame f hrdg =>
    have hcln := answer_act_isOk_iff hd w.shared (w.sessions i) f
    have hframe : (∀ f', Event.frame f = .frame f' → Clean L w.shared f') ↔ Clean L w.shared f := by
      constructor
      · intro hall
        exact hall f rfl
      · intro hc f' hf'
        cases hf'
        exact hc
    rw [hframe, ← hcln]
    cases ha : answer L (act L w.shared (w.sessions i) f) with
    | ok _ => simp [handle_of_ok ha, halive, Except.isOk, Except.toBool]
    | error _ => simp [handle_of_error ha, Except.isOk, Except.toBool]
  | deliver _ => simpa using halive
  | written => simpa using halive
  | closed hrdg => simpa [hangUp] using halive

/-- A clean event owes one reply to the session whose frame it is. -/
theorem length_repliesAt (hd : Documented L P)
    (hcln : ∀ f, label.2 = .frame f → Clean L w.shared f) (k : Nat) :
    (repliesAt L w label k).length = if isFrameOf k label then 1 else 0 := by
  obtain ⟨i, e⟩ := label
  cases e with
  | frame f =>
    have hok := (answer_act_isOk_iff hd w.shared (w.sessions i) f).mpr (hcln f rfl)
    by_cases hik : i = k
    · subst hik
      cases ha : answer L (act L w.shared (w.sessions i) f) with
      | ok _ => simp [repliesAt, isFrameOf, ha, Except.toOption]
      | error _ =>
        rw [ha] at hok
        cases hok
    · simp [repliesAt, isFrameOf, hik]
  | deliver _ => simp [repliesAt, isFrameOf]
  | written => simp [repliesAt, isFrameOf]
  | closed => simp [repliesAt, isFrameOf]

/-- Whatever the run, what its sessions have queued is what they owe. -/
theorem replies_run : ∀ {labels : List (Nat × Event)} {w : World P},
    run (next L) w labels = some w' → ∀ k,
      (w'.sessions k).replies = (w.sessions k).replies ++ repliesTo L w labels k
  | [], w, h, k => by
    cases h
    simp [repliesTo]
  | label :: labels, w, h, k => by
    obtain ⟨v, hv, hrest⟩ := Option.bind_eq_some_iff.mp h
    rw [replies_run hrest k, replies_next hv k, List.append_assoc, repliesTo, hv]

/-- Nothing happens after a crash. -/
theorem eq_of_crashed (hw : w.crashed ≠ none) (h : run (next L) w labels = some w') : w' = w := by
  cases labels with
  | nil => exact (Option.some.inj h).symm
  | cons _ labels =>
    obtain ⟨v, hv, -⟩ := Option.bind_eq_some_iff.mp h
    exact absurd (next_eq_some hv).1 hw

/-- A run that starts alive stays alive exactly when it is clean. -/
theorem crashed_run (hd : Documented L P) : ∀ {labels : List (Nat × Event)} {w : World P},
    w.crashed = none → run (next L) w labels = some w' →
    (w'.crashed = none ↔ CleanRun L w labels)
  | [], w, hw, h => by
    cases h
    exact iff_of_true hw trivial
  | label :: labels, w, hw, h => by
    obtain ⟨v, hv, hrest⟩ := Option.bind_eq_some_iff.mp h
    have hstep := crashed_next hd hv
    rw [CleanRun, hv]
    by_cases halive : v.crashed = none
    · have ih := crashed_run hd halive hrest
      rw [ih]
      constructor
      · intro hcln
        exact ⟨hstep.mp halive, fun v' hv' => Option.some.inj hv' ▸ hcln⟩
      · intro hcln
        exact hcln.2 v rfl
    · rw [eq_of_crashed halive hrest]
      refine iff_of_false halive ?_
      intro hcln
      exact halive (hstep.mpr hcln.1)

theorem length_repliesTo (hd : Documented L P) (k : Nat) :
    ∀ {labels : List (Nat × Event)} {w : World P},
    run (next L) w labels = some w' → CleanRun L w labels →
    (repliesTo L w labels k).length = received k labels
  | [], _, _, _ => rfl
  | label :: labels, w, h, hcln => by
    obtain ⟨v, hv, hrest⟩ := Option.bind_eq_some_iff.mp h
    have ih := length_repliesTo hd k hrest (hcln.2 v hv)
    rw [repliesTo, hv, List.length_append, length_repliesAt hd hcln.1, ih, received, received,
      List.countP_cons]
    omega

/-- **A run answers every frame.** No exception escapes and every session has queued one
reply for each of its frames, in the order they arrived in, exactly when every frame is
clean in the state it meets. -/
theorem frames_answered_iff (hd : Documented L P) (hw : w.crashed = none)
    (h : run (next L) w labels = some w') :
    (w'.crashed = none ∧ ∀ k,
      (w'.sessions k).replies = (w.sessions k).replies ++ repliesTo L w labels k ∧
      (repliesTo L w labels k).length = received k labels) ↔
    CleanRun L w labels := by
  rw [crashed_run hd hw h]
  constructor
  · intro hprop
    exact hprop.1
  · intro hclean
    exact ⟨hclean, fun k => ⟨replies_run h k, length_repliesTo hd k h hclean⟩⟩

/-! ## On concrete frames -/

/-- A library that parses the texts of a table. -/
def tableJson (table : List (Bytes × Json)) : JsonLib where
  parse data :=
    match table.lookup data with
    | some j => .ok j
    | none => .error (ascii "parse error")
  atText _ _ := ascii "key not found"
  getText _ := ascii "type must be string"
  dumpText _ := ascii "invalid UTF-8 byte"
  render _ := []

/-- A provider that accepts everything and carries no schemas. -/
def quiet : Provider where
  State := Unit
  Schema := Unit
  ofBuilt _ := ()
  encodeIpc _ := some []
  createTopic _ _ _ := ((), .ok ())
  publish _ _ _ := ((), .ok ())
  subscribe _ _ := ((), .ok ())
  unsubscribe _ _ := ((), .ok ())
  arrived _ _ := none
  describe _ := .ok ([], .null)

theorem documented_tableJson (table : List (Bytes × Json)) :
    Documented (tableJson table) quiet where
  atText _ _ := show valid (ascii "key not found") = true by decide
  getText _ := show valid (ascii "type must be string") = true by decide
  dumpText _ := show valid (ascii "invalid UTF-8 byte") = true by decide
  describe _ := speaks_ok _

/-- A publish frame with an empty envelope. -/
def publishFrame (topic : Bytes) : Frame :=
  .binary (leBytes 2 topic.length ++ topic ++ List.replicate 8 0)

/-- One session publishes to a reserved topic and is refused; another one publishes and
sends a text that does not parse. -/
def twoSessions : List (Nat × Event) :=
  [(0, .frame (publishFrame (ascii "__x"))), (1, .frame (publishFrame (ascii "a/b"))),
    (0, .written), (1, .frame (.text (ascii "?")))]

theorem frames_answered_twoSessions :
    ∃ w w' : World quiet, w = World.start () ∧ run (next (tableJson [])) w twoSessions = some w' ∧
      w'.crashed = none ∧ ∀ k, (w'.sessions k).replies =
          (w.sessions k).replies ++ repliesTo (tableJson []) w twoSessions k ∧
        (repliesTo (tableJson []) w twoSessions k).length = received k twoSessions := by
  refine ⟨World.start (), _, rfl, rfl, ?_⟩
  have hclean : CleanRun (tableJson []) (World.start (P := quiet) ()) twoSessions :=
    (crashed_run (documented_tableJson []) rfl rfl).mp rfl
  exact (frames_answered_iff (documented_tableJson []) rfl rfl).mpr hclean

/-- A reserved topic that is not UTF-8: the refusal quotes it, the error reply cannot be
rendered, and the exception escapes with nothing queued. -/
theorem publish_escapes : ∃ w', run (next (tableJson [])) (World.start (P := quiet) ())
        [(0, .frame (publishFrame [95, 95, 255]))] = some w' ∧
      w'.crashed ≠ none ∧ (w'.sessions 0).replies = [] :=
  ⟨_, rfl, by decide, by decide⟩

end Fletcher.Gateway
