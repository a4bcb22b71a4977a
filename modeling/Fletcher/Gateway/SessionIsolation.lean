import Fletcher.Gateway.SessionReplies

/-!
# Whose subscription it is

The ids of one `Subscriber` serve all sessions, and a session hands whatever id a client
names to it. Ids are never given out twice, so no two sessions own the same one, and a
session that hangs up cancels its own only. What is left is the `unsubscribe` frame: a
run keeps its sessions apart exactly when no such frame names an id that is open in
another session, and no frame ends the process while another session has one open.
-/

namespace Fletcher.Gateway

open Lib Utf8 Fletcher.Core PubSub List

variable {topic key : Bytes}

variable {L : JsonLib} {P : Provider}

/-! ## The id table -/

theorem lookup_filter_ne {id id' : Nat} (h : id' ≠ id) : ∀ table : List (Nat × Bytes),
    (table.filter fun p => p.1 != id).lookup id' = table.lookup id'
  | [] => rfl
  | (n, key) :: table => by
    have ih := lookup_filter_ne h table
    by_cases hn : n = id
    · subst hn
      have hid : (id' == n) = false := by simpa using h
      simp [hid, ih, lookup_cons]
    · simp [hn, ih, lookup_cons]

theorem lookup_filter_self (id : Nat) : ∀ table : List (Nat × Bytes),
    (table.filter fun p => p.1 != id).lookup id = none
  | [] => rfl
  | (n, key) :: table => by
    have ih := lookup_filter_self id table
    by_cases hn : n = id
    · subst hn
      simpa using ih
    · have hid : (id == n) = false := by simpa using Ne.symm hn
      simp [hn, ih, lookup_cons, hid]

namespace Shared

variable {sh : Shared P} {id id' : Nat}

/-- `Unsubscribe` takes the id out, whatever the provider says. -/
theorem unsubscribe_table :
    (sh.unsubscribe id).1.topicOf id' = if id' = id then none else sh.topicOf id' := by
  have hfil : (sh.without id).lookup id' = if id' = id then none else sh.topicOf id' := by
    by_cases h : id' = id
    · subst h
      rw [if_pos rfl]
      exact lookup_filter_self _ _
    · rw [if_neg h]
      exact lookup_filter_ne h _
  unfold unsubscribe
  cases hkey : sh.topicOf id with
  | none =>
    by_cases h : id' = id
    · subst h
      simpa [returns] using hkey
    · simp [returns, h]
  | some key =>
    by_cases hcls : sh.closesTopic id key = true
    · simpa [hcls, topicOf] using hfil
    · simpa [hcls, returns, topicOf] using hfil

theorem unsubscribe_nextId : (sh.unsubscribe id).1.nextId = sh.nextId := by
  unfold unsubscribe
  cases sh.topicOf id with
  | none => rfl
  | some key =>
    by_cases hcls : sh.closesTopic id key = true
    · simp [hcls]
    · simp [hcls, returns]

theorem createTopic_ids (segments : List Bytes) (schema : Option P.Schema) :
    (sh.createTopic segments schema).1.subscriptionTopic = sh.subscriptionTopic ∧
      (sh.createTopic segments schema).1.nextId = sh.nextId := by
  unfold createTopic
  cases joinSegments segments with
  | error _ => exact ⟨rfl, rfl⟩
  | ok key =>
    dsimp only
    cases sh.topics.lookup key with
    | some _ =>
      dsimp only
      split
      · exact ⟨rfl, rfl⟩
      · exact ⟨rfl, rfl⟩
    | none =>
      rcases P.createTopic sh.provider key schema with ⟨provider, _ | _⟩
      · exact ⟨rfl, rfl⟩
      · exact ⟨rfl, rfl⟩

theorem publish_ids (segments : List Bytes) (envelope : Envelope) :
    (sh.publish segments envelope).1.subscriptionTopic = sh.subscriptionTopic ∧
      (sh.publish segments envelope).1.nextId = sh.nextId := by
  unfold publish
  cases joinSegments segments with
  | error _ => exact ⟨rfl, rfl⟩
  | ok _ => exact ⟨rfl, rfl⟩

/-- `Subscribe` enters the next id, or leaves the table alone. -/
theorem subscribe_ids (segments : List Bytes) :
    (∃ key, (sh.subscribe segments).2 = .ok (sh.nextId, key) ∧
      (sh.subscribe segments).1.subscriptionTopic = (sh.nextId, key) :: sh.subscriptionTopic ∧
      (sh.subscribe segments).1.nextId = sh.nextId + 1) ∨
    (∃ text, (sh.subscribe segments).2 = .error text) ∧
      (sh.subscribe segments).1.subscriptionTopic = sh.subscriptionTopic ∧
      sh.nextId ≤ (sh.subscribe segments).1.nextId := by
  unfold subscribe
  cases joinSegments segments with
  | error text => exact .inr ⟨⟨text, rfl⟩, rfl, Nat.le_refl _⟩
  | ok key =>
    dsimp only
    split
    · exact .inl ⟨key, rfl, rfl, rfl⟩
    · rcases P.subscribe sh.provider key with ⟨provider, text | _⟩
      · exact .inr ⟨⟨text, rfl⟩, rfl, Nat.le_succ _⟩
      · exact .inl ⟨key, rfl, rfl, rfl⟩

end Shared

theorem unsubscribeAll_table {id : Nat} : ∀ {subs : List (Nat × Bytes)} {sh : Shared P},
    (unsubscribeAll sh subs).topicOf id = if id ∈ subs.map Prod.fst then none else sh.topicOf id
  | [], _ => rfl
  | (n, topic) :: subs, sh => by
    rw [unsubscribeAll, unsubscribeAll_table, Shared.unsubscribe_table, map_cons]
    by_cases hn : id = n
    · simp [hn]
    · simp only [hn, mem_cons, false_or, if_false]

theorem unsubscribeAll_nextId : ∀ {subs : List (Nat × Bytes)} {sh : Shared P},
    (unsubscribeAll sh subs).nextId = sh.nextId
  | [], _ => rfl
  | (n, topic) :: subs, sh => by
    rw [unsubscribeAll, unsubscribeAll_nextId, Shared.unsubscribe_nextId]

/-! ## What an event does to the ids -/

/-- The id an `unsubscribe` frame names. -/
def unsubscribes (L : JsonLib) : Frame → Option Nat
  | .text data =>
    match parseRequest L data with
    | .ok (.unsubscribe id) => some id
    | _ => none
  | .binary _ => none

/-- From `sh` and `se` to `sh'` and `se'`: the ids in `drops` are cancelled, and at most the next
id is given out, to this session. -/
structure Moves (sh : Shared P) (se : Session) (sh' : Shared P) (se' : Session) (drops : List Nat) :
    Prop where
  nextId : sh.nextId ≤ sh'.nextId
  table : ∀ id, id < sh.nextId ∨ sh'.nextId ≤ id →
    sh'.topicOf id = if id ∈ drops then none else sh.topicOf id
  keeps : ∀ p ∈ se.subscriptions, p.1 ∉ drops → p ∈ se'.subscriptions
  gains : ∀ p ∈ se'.subscriptions, p ∈ se.subscriptions ∨
    p.1 = sh.nextId ∧ sh.nextId < sh'.nextId

section Moves

variable {sh sh' : Shared P} {se se' : Session}

theorem moves_idle (htab : sh'.subscriptionTopic = sh.subscriptionTopic)
    (hnext : sh.nextId ≤ sh'.nextId) (hsub : se'.subscriptions = se.subscriptions) :
    Moves sh se sh' se' [] where
  nextId := hnext
  table _ _ := by simp [Shared.topicOf, htab]
  keeps _ hp _ := hsub ▸ hp
  gains _ hp := .inl (hsub ▸ hp)

theorem moves_same (result : Except Text Json) :
    Moves sh se (⟨sh, se, result⟩ : Outcome P).shared se [] :=
  moves_idle rfl (Nat.le_refl _) rfl

theorem moves_onCreateTopic (msg : Json) : Moves sh se (onCreateTopic L sh se msg).shared
    (onCreateTopic L sh se msg).session [] := by
  unfold onCreateTopic
  split
  · exact moves_same _
  · next topic _ =>
    split
    · exact moves_same _
    · next schema _ =>
      have hids := sh.createTopic_ids (splitTopic topic) schema
      exact moves_idle hids.1 (Nat.le_of_eq hids.2.symm) rfl

theorem moves_onSubscribe (topic : Bytes) : Moves sh se (onSubscribe sh se topic).shared
    (onSubscribe sh se topic).session [] := by
  have hids := sh.subscribe_ids (splitTopic topic)
  unfold onSubscribe
  rcases hs : sh.subscribe (splitTopic topic) with ⟨sh', text | ⟨n, key⟩⟩
  · rw [hs] at hids
    rcases hids with ⟨key, hok, -, -⟩ | ⟨-, htab, hnext⟩
    · cases hok
    · exact moves_idle htab hnext rfl
  · rw [hs] at hids
    rcases hids with ⟨_, hok, htab, hnext⟩ | ⟨⟨text, herr⟩, -, -⟩
    · cases hok
      dsimp only at htab hnext ⊢
      refine ⟨by omega, fun id hid => ?_, fun p hp _ => mem_cons_of_mem _ hp, fun p hp => ?_⟩
      · have hne : (id == sh.nextId) = false := beq_eq_false_iff_ne.mpr (by omega)
        simp [Shared.topicOf, htab, lookup_cons, hne]
      · rcases mem_cons.mp hp with rfl | hp
        · exact .inr ⟨rfl, by omega⟩
        · exact .inl hp
    · cases herr

theorem moves_onUnsubscribe (id : Nat) : Moves sh se (onUnsubscribe sh se id).shared
    (onUnsubscribe sh se id).session [id] := by
  have hmove : ∀ se' : Session, (∀ p, p.1 ≠ id → p ∈ se.subscriptions → p ∈ se'.subscriptions) →
      se'.subscriptions ⊆ se.subscriptions → Moves sh se (sh.unsubscribe id).1 se' [id] := by
    intro se' hkeep hsub
    refine ⟨Nat.le_of_eq Shared.unsubscribe_nextId.symm, fun id' _ => ?_, fun p hp hne => ?_,
      fun p hp => .inl (hsub hp)⟩
    · simp [Shared.unsubscribe_table]
    · exact hkeep p (by simpa using hne) hp
  unfold onUnsubscribe
  rcases hs : sh.unsubscribe id with ⟨_, _ | _⟩
  · rw [hs] at hmove
    exact hmove se (fun _ _ hp => hp) fun _ hp => hp
  · rw [hs] at hmove
    exact hmove _ (fun p hne hp => by simp [hne, hp]) (filter_subset_self _)

theorem moves_act (f : Frame) : Moves sh se (act L sh se f).shared (act L sh se f).session
    (unsubscribes L f).toList := by
  cases f with
  | text data =>
    rw [act, unsubscribes]
    cases parseRequest L data with
    | error text => exact moves_same _
    | ok request =>
      cases request with
      | createTopic msg => exact moves_onCreateTopic msg
      | subscribe topic => exact moves_onSubscribe topic
      | unsubscribe id => exact moves_onUnsubscribe id
      | listTopics => exact moves_same _
      | unknown _ => exact moves_same _
  | binary data =>
    rw [act, onPublish]
    split
    · exact moves_same _
    · next topic _ _ =>
      split
      · exact moves_same _
      · next envelope _ =>
        have hids := sh.publish_ids (splitTopic topic) envelope
        exact moves_idle hids.1 (Nat.le_of_eq hids.2.symm) rfl

end Moves

variable {w w' : World P} {i k : Nat}

/-- A frame is answered, or ends the process; the rest of it is the action's. -/
theorem handle_eq_put (f : Frame) : ∃ crashed se,
    handle L w i f =
      { w with shared := (act L w.shared (w.sessions i) f).shared, crashed }.put i se ∧
      se.subscriptions = (act L w.shared (w.sessions i) f).session.subscriptions ∧
      se.reading = (w.sessions i).reading := by
  obtain ⟨subscriptions, hse⟩ := keepsSession_act (L := L) w.shared (w.sessions i) f
  cases ha : answer L (act L w.shared (w.sessions i) f) with
  | ok _ => exact ⟨_, _, handle_of_ok ha, rfl, by rw [hse]; rfl⟩
  | error _ => exact ⟨_, _, handle_of_error ha, rfl, by rw [hse]⟩

/-- The ids an event of session `i` cancels. -/
def dropped (L : JsonLib) (w : World P) (i : Nat) : Event → List Nat
  | .frame f => (unsubscribes L f).toList
  | .closed => (w.sessions i).subscriptions.map Prod.fst
  | _ => []

/-- **What an event does to the ids**, and to no session but its own. -/
structure Moved (L : JsonLib) (w : World P) (i : Nat) (e : Event) (w' : World P) : Prop where
  other : ∀ k, k ≠ i → w'.sessions k = w.sessions k
  reading : e ≠ .closed → (w'.sessions i).reading = (w.sessions i).reading
  moves : Moves w.shared (w.sessions i) w'.shared (w'.sessions i) (dropped L w i e)

theorem handle_moved (f : Frame) : Moved L w i (.frame f) (handle L w i f) := by
  obtain ⟨crashed, se, heq, hsub, hread⟩ := handle_eq_put (L := L) (w := w) (i := i) f
  rw [heq]
  refine ⟨fun k hk => put_other _ hk, fun _ => by rw [put_self, hread], ?_⟩
  rw [put_self]
  have hact : Moves w.shared (w.sessions i) _ _ _ := moves_act (L := L) f
  exact ⟨hact.nextId, hact.table, hsub ▸ hact.keeps, hsub ▸ hact.gains⟩

theorem next_moved {e : Event} (hs : next L w (i, e) = some w') : Moved L w i e w' := by
  -- sending and finishing a write change no subscription
  have hput : ∀ {e : Event} {se : Session}, dropped L w i e = [] →
      se.reading = (w.sessions i).reading → se.subscriptions = (w.sessions i).subscriptions →
      Moved L w i e (w.put i se) := by
    intro e se hnone hread hsub
    refine ⟨fun k hk => put_other _ hk, fun _ => by rw [put_self, hread], ?_⟩
    rw [put_self, hnone]
    exact moves_idle rfl (Nat.le_refl _) hsub
  obtain ⟨-, hdid⟩ := next_eq_some hs
  cases hdid with
  | frame f _ => exact handle_moved f
  | deliver _ => exact hput rfl rfl rfl
  | written =>
    unfold Session.written
    split
    · exact hput rfl rfl rfl
    · exact hput rfl rfl rfl
  | closed _ =>
    refine ⟨fun k hk => put_other _ hk, fun hopen => by simp at hopen, ?_⟩
    rw [hangUp, put_self]
    refine ⟨Nat.le_of_eq unsubscribeAll_nextId.symm, fun _ _ => unsubscribeAll_table, ?_, by simp⟩
    intro p hp hno
    exact absurd (mem_map_of_mem hp) hno

/-! ## Owners -/

/-- Every id a session has was given out, and to that session only. -/
structure Owned (w : World P) : Prop where
  issued : ∀ k, ∀ p ∈ (w.sessions k).subscriptions, p.1 < w.shared.nextId
  unique : ∀ k k', ∀ p ∈ (w.sessions k).subscriptions, ∀ p' ∈ (w.sessions k').subscriptions,
    p.1 = p'.1 → k = k'

theorem owned_start (provider : P.State) : Owned (World.start provider) where
  issued k p hp := by cases hp
  unique k k' p hp := by cases hp

theorem owned_next {label : Nat × Event} (h : Owned w) (hs : next L w label = some w') :
    Owned w' := by
  obtain ⟨i, e⟩ := label
  obtain ⟨hoth, -, hmov⟩ := next_moved hs
  have hle := hmov.nextId
  -- every id of the new state is an old one of the same session, or the new id of `i`
  have hold : ∀ k, ∀ p ∈ (w'.sessions k).subscriptions, p ∈ (w.sessions k).subscriptions ∨
      k = i ∧ p.1 = w.shared.nextId ∧ w.shared.nextId < w'.shared.nextId := by
    intro k p hp
    by_cases hk : k = i
    · subst hk
      exact (hmov.gains p hp).imp_right fun hnew => ⟨rfl, hnew⟩
    · rw [hoth k hk] at hp
      exact .inl hp
  constructor
  · intro k p hp
    rcases hold k p hp with hp | ⟨-, heq, hlt⟩
    · exact Nat.lt_of_lt_of_le (h.issued k p hp) hle
    · omega
  · intro k k' p hp p' hp' heq
    rcases hold k p hp with hp | ⟨hk, _, -⟩
    · rcases hold k' p' hp' with hp' | ⟨-, _, -⟩
      · exact h.unique k k' p hp p' hp' heq
      · have hlt := h.issued k p hp
        omega
    · rcases hold k' p' hp' with hp' | ⟨hk', -, -⟩
      · have hlt := h.issued k' p' hp'
        omega
      · rw [hk, hk']

/-- Ids have one owner in every state the gateway reaches. -/
theorem owned_run {provider : P.State} {labels : List (Nat × Event)}
    (h : run (next L) (World.start provider) labels = some w) : Owned w :=
  run_preserves owned_next (owned_start provider) h

/-! ## Isolation -/

/-- Session `k` has the subscription and it is live: the id stands in the table, under
the topic it was opened for. -/
def Open (w : World P) (k id : Nat) (topic key : Bytes) : Prop :=
  w.crashed = none ∧ (id, topic) ∈ (w.sessions k).subscriptions ∧ w.shared.topicOf id = some key

/-- What of its own session ends a subscription: the session's end, an `unsubscribe` that
names it, or a frame that ends the process. -/
def Ends (L : JsonLib) (w : World P) (id : Nat) : Event → Prop
  | .closed => True
  | .frame f => unsubscribes L f = some id ∨ ¬ Clean L w.shared f
  | _ => False

/-- Whatever session a subscription belongs to, only that session ends it. -/
def Isolated (L : JsonLib) (w : World P) (labels : List (Nat × Event)) : Prop :=
  ∀ before label after w₁ w₂, labels = before ++ label :: after →
    run (next L) w before = some w₁ → next L w₁ label = some w₂ →
    ∀ k id topic key, Open w₁ k id topic key →
      Open w₂ k id topic key ∨ label.1 = k ∧ Ends L w₁ id label.2

/-- No frame names an id that is open in another session, or is unclean while one is. -/
def Respectful (L : JsonLib) (w : World P) (labels : List (Nat × Event)) : Prop :=
  ∀ before i f after w₁, labels = before ++ (i, .frame f) :: after →
    run (next L) w before = some w₁ →
    ∀ k id topic key, k ≠ i → Open w₁ k id topic key →
      unsubscribes L f ≠ some id ∧ Clean L w₁.shared f

/-- One event: a subscription stays, or its own session has ended it, or the event is a
frame of another session that names its id or ends the process. -/
theorem open_next (hd : Documented L P) (h : Owned w) {e : Event} {id : Nat}
    (hs : next L w (i, e) = some w') (hopen : Open w k id topic key)
    (hres : k ≠ i → ∀ f, e = .frame f → unsubscribes L f ≠ some id ∧ Clean L w.shared f) :
    Open w' k id topic key ∨ i = k ∧ Ends L w id e := by
  obtain ⟨-, hmem, htop⟩ := hopen
  obtain ⟨hoth, -, hmov⟩ := next_moved hs
  by_cases hends : i = k ∧ Ends L w id e
  · exact .inr hends
  -- the event is no frame that names the id or crashes, and no end of its session
  have hboth : ∀ f, e = .frame f → unsubscribes L f ≠ some id ∧ Clean L w.shared f := by
    intro f hf
    by_cases hk : k = i
    · have hno : ¬ Ends L w id e := fun hyes => hends ⟨hk.symm, hyes⟩
      subst hf
      refine ⟨fun heq => hno (.inl heq), ?_⟩
      by_contra hunc
      exact hno (.inr hunc)
    · exact hres hk f hf
  have hkept : id ∉ dropped L w i e := by
    cases e with
    | frame f => simpa [dropped] using (hboth f rfl).1
    | closed =>
      intro hin
      obtain ⟨p, hp, hpid⟩ := mem_map.mp hin
      exact hends ⟨(h.unique k i (id, topic) hmem p hp hpid.symm).symm, trivial⟩
    | _ => exact not_mem_nil
  refine .inl ⟨(crashed_next hd hs).mpr fun f hf => (hboth f hf).2, ?_, ?_⟩
  · by_cases hk : k = i
    · subst hk
      exact hmov.keeps _ hmem hkept
    · rw [hoth k hk]
      exact hmem
  · rw [hmov.table id (.inl (h.issued k _ hmem)), if_neg hkept]
    exact htop

/-- A run that is taken apart at one of its labels. -/
theorem run_at {before after : List (Nat × Event)} {label : Nat × Event} {v : World P}
    (h : run (next L) w (before ++ label :: after) = some v) :
    ∃ w₁ w₂, run (next L) w before = some w₁ ∧ next L w₁ label = some w₂ := by
  rw [run_append] at h
  obtain ⟨w₁, hw₁, h⟩ := Option.bind_eq_some_iff.mp h
  obtain ⟨w₂, hw₂, -⟩ := Option.bind_eq_some_iff.mp h
  exact ⟨w₁, w₂, hw₁, hw₂⟩

/-- **Session isolation.** In a run from the start, every subscription is ended by its
own session alone, exactly when the frames respect the other sessions' ids. -/
theorem isolated_iff (hd : Documented L P) {provider : P.State} {labels : List (Nat × Event)}
    (hrun : run (next L) (World.start provider) labels = some w) :
    Isolated L (World.start provider) labels ↔ Respectful L (World.start provider) labels := by
  constructor
  · intro hiso before i f after w₁ hlabels hw₁ k id topic key hk hopen
    obtain ⟨w₁', w₂, hw₁', hw₂⟩ := run_at (hlabels ▸ hrun)
    obtain rfl : w₁ = w₁' := by
      rw [hw₁] at hw₁'
      exact Option.some.inj hw₁'
    -- the frame is another session's, so the subscription is still open behind it
    have hstays : Open w₂ k id topic key := by
      rcases hiso before (i, .frame f) after w₁ w₂ hlabels hw₁ hw₂ k id topic key hopen with
        hstays | ⟨hik, -⟩
      · exact hstays
      · exact absurd hik.symm hk
    constructor
    · intro hnames
      have hgone := (next_moved hw₂).moves.table id
        (.inl ((owned_run hw₁).issued k _ hopen.2.1))
      rw [hstays.2.2, dropped, hnames, if_pos (by simp)] at hgone
      cases hgone
    · exact (crashed_next hd hw₂).mp hstays.1 f rfl
  · intro hrespect before label after w₁ w₂ hlabels hw₁ hw₂ k id topic key hopen
    obtain ⟨i, e⟩ := label
    refine open_next hd (owned_run hw₁) hw₂ hopen ?_
    intro hk f hf
    subst hf
    exact hrespect before i f after w₁ hlabels hw₁ k id topic key hk hopen

/-- A client subscribes and another one names its id. -/
def subscribeText : Bytes := ascii "\x7b\"action\":\"subscribe\",\"topic\":\"a\"\x7d"

def unsubscribeText : Bytes := ascii "\x7b\"action\":\"unsubscribe\",\"subId\":\"1\"\x7d"

def clientJson : JsonLib := tableJson
  [(subscribeText, .object
      [(ascii "action", .string (ascii "subscribe")), (ascii "topic", .string (ascii "a"))]),
    (unsubscribeText, .object
      [(ascii "action", .string (ascii "unsubscribe")), (ascii "subId", .string (ascii "1"))])]

theorem isolated_iff_owner : Isolated clientJson (World.start (P := quiet) ())
    [(0, .frame (.text subscribeText)), (0, .frame (.text unsubscribeText))] := by
  refine (isolated_iff (documented_tableJson _) rfl).mpr ?_
  intro before i f after w₁ hlabels hw₁ k id topic key hk hopen
  -- both frames are session 0's, and no other session has a subscription
  have hnone : (w₁.sessions k).subscriptions = [] := by
    rcases before with _ | ⟨a, _ | ⟨b, rest⟩⟩
    · cases hw₁
      rfl
    · cases hlabels
      obtain ⟨v, hv, hend⟩ := Option.bind_eq_some_iff.mp hw₁
      cases hend
      rw [(next_moved hv).other k hk]
      rfl
    · cases rest <;> cases hlabels
  rw [Open, hnone] at hopen
  cases hopen.2.1

/-- Session 1 ends the subscription of session 0. -/
theorem unsubscribe_of_another : ¬ Isolated clientJson (World.start (P := quiet) ())
      [(0, .frame (.text subscribeText)), (1, .frame (.text unsubscribeText))] := by
  intro h
  rcases h [(0, .frame (.text subscribeText))] (1, .frame (.text unsubscribeText)) [] _ _ rfl rfl
    rfl 0 1 (ascii "a") (ascii "a") ⟨by decide, by decide, by decide⟩ with hopen | ⟨hown, -⟩
  · exact absurd hopen.2.2 (by decide)
  · cases hown

end Fletcher.Gateway
