import Fletcher.Gateway.Base64
import Fletcher.Gateway.SessionIsolation

/-!
# A subscribe frame, all or nothing

`OnSubscribe` enters the subscription before it builds the reply, and building the reply can
throw: on a schema that has arrived but cannot be serialised or described, and on a string that
is not UTF-8. The `catch` answers with an error then, and takes nothing back. `Announces` says
that the reply can be built.

However the frame is answered, a subscription that is live belongs to the session, and is
cancelled with it.
-/

namespace Fletcher.Gateway

open Lib Utf8 Fletcher.Core PubSub List

variable {L : JsonLib} {P : Provider} {w w' : World P} {i id : Nat} {topic key : Bytes}

/-- The `subscribed` reply can be built from what the subscription's arrival holds. -/
def Announceable (provider : P.State) (topic key : Bytes) : Prop :=
  valid topic = true ∧ ∀ schema, P.arrived provider key = some schema →
    ∃ ipc json, P.describe schema = .ok (ipc, json) ∧ json.wellFormed = true

/-- If the provider takes the subscription, the reply to it can be built. -/
def Announces (sh : Shared P) (topic : Bytes) : Prop :=
  ∀ key, joinSegments (splitTopic topic) = .ok key →
    if sh.providerSubscribed.contains key then Announceable sh.provider topic key
    else ∀ provider, P.subscribe sh.provider key = (provider, .ok ()) →
      Announceable provider topic key

/-- What is asked of a subscribe frame: an error leaves no subscription of it, and `subscribed`
leaves the one it reports, until the session ends. -/
structure AllOrNothing (L : JsonLib) (w : World P) (i : Nat) (f : Frame) : Prop where
  refused : ∀ text bytes, attempt L (act L w.shared (w.sessions i) f) = .error text →
    answer L (act L w.shared (w.sessions i) f) = .ok bytes →
    (handle L w i f).shared.subscriptionTopic = w.shared.subscriptionTopic
  subscribed : ∀ bytes, attempt L (act L w.shared (w.sessions i) f) = .ok bytes →
    ∃ id topic key members, bytes = L.render (reply "subscribed"
        ((ascii "subId", .string (decimal id)) :: (ascii "topic", .string topic) :: members)) ∧
      w.shared.topicOf id = none ∧
      (handle L w i f).shared.subscriptionTopic = (id, key) :: w.shared.subscriptionTopic ∧
      ∀ labels v, run (next L) (handle L w i f) labels = some v →
        (v.sessions i).reading = false → v.shared.topicOf id = none

/-! ## The reply -/

theorem valid_base64Encode (data : Bytes) : valid (base64Encode data) = true := by
  have hlt := fun n => (base64Char_cases n).2.2
  refine valid_ascii ?_
  fun_induction base64Encode data with
  | case1 => simp
  | case2 | case3 => simp [hlt]
  | case4 a a' a'' rest b ih => simpa [hlt] using ih

theorem dump_eq_ok {j : Json} {bytes : Bytes} :
    L.dump j = .ok bytes ↔ j.wellFormed = true ∧ L.render j = bytes := by
  unfold JsonLib.dump
  split
  · next h => simp [h]
  · next h => simp [h]

theorem wellFormed_subscribed (id : Nat) (topic : Bytes) (members : List (Bytes × Json)) :
    (reply "subscribed" ((ascii "subId", .string (decimal id)) ::
      (ascii "topic", .string topic) :: members)).wellFormed =
      (valid topic && Json.membersWellFormed members) := by
  have hlits : valid (ascii "type") = true ∧ valid (ascii "subscribed") = true ∧
      valid (ascii "subId") = true ∧ valid (ascii "topic") = true := by decide
  obtain ⟨h1, h2, h3, h4⟩ := hlits
  simp [reply, Json.wellFormed, Json.membersWellFormed, h1, h2, h3, h4, decimal, valid_numeral]

/-- What `OnSubscribe` leaves when the subscriber has given it an id. -/
def announced (sh : Shared P) (se : Session) (id : Nat) (topic key : Bytes) : Outcome P :=
  ⟨sh, { se with subscriptions := (id, topic) :: se.subscriptions },
    (schemaMembers (P.arrived sh.provider key)).map fun members =>
      reply "subscribed" ((ascii "subId", .string (decimal id)) ::
        (ascii "topic", .string topic) :: members)⟩

/-- The reply is rendered exactly when it can be built. -/
theorem attempt_announced (sh : Shared P) (se : Session) (id : Nat) :
    (∃ bytes, attempt L (announced sh se id topic key) = .ok bytes) ↔
      Announceable sh.provider topic key := by
  unfold attempt announced Announceable schemaMembers
  cases P.arrived sh.provider key with
  | none =>
    show (∃ bytes, L.dump _ = .ok bytes) ↔ _
    simp [dump_eq_ok, wellFormed_subscribed, Json.membersWellFormed]
  | some schema =>
    dsimp only
    cases hsch : P.describe schema with
    | error text => simp [hsch, Except.map, Except.bind]
    | ok description =>
      obtain ⟨ipc, json⟩ := description
      have hlits : valid (ascii "schemaIpc") = true ∧ valid (ascii "schema") = true := by decide
      show (∃ bytes, L.dump _ = .ok bytes) ↔ _
      simp [dump_eq_ok, wellFormed_subscribed, Json.membersWellFormed, Json.wellFormed, hlits,
        valid_base64Encode, hsch]

/-! ## A live subscription has its session -/

/-- The id has been given out, and while it is live session `i` is there and has it. -/
structure Held (w : World P) (i id : Nat) : Prop where
  issued : id < w.shared.nextId
  owner : w.shared.topicOf id = none ∨
    (w.sessions i).reading = true ∧ ∃ p ∈ (w.sessions i).subscriptions, p.1 = id

theorem held_next {label : Nat × Event} (h : Held w i id) (hs : next L w label = some w') :
    Held w' i id := by
  obtain ⟨k, e⟩ := label
  obtain ⟨hoth, hread, hmov⟩ := next_moved hs
  refine ⟨Nat.lt_of_lt_of_le h.issued hmov.nextId, ?_⟩
  rw [hmov.table id (.inl h.issued)]
  by_cases hdrop : id ∈ dropped L w k e
  · exact .inl (if_pos hdrop)
  rw [if_neg hdrop]
  refine h.owner.imp_right fun ⟨hopen, p, hp, hpid⟩ => ?_
  by_cases hk : i = k
  · -- its own session would have cancelled it
    subst hk hpid
    have hnot : e ≠ .closed := by
      rintro rfl
      exact hdrop (mem_map_of_mem hp)
    exact ⟨(hread hnot).trans hopen, p, hmov.keeps p hp hdrop, rfl⟩
  · rw [hoth i hk]
    exact ⟨hopen, p, hp, hpid⟩

/-- Ids that were not given out yet are not in the table. -/
def Fresh (w : World P) : Prop := ∀ id, w.shared.nextId ≤ id → w.shared.topicOf id = none

theorem fresh_next {label : Nat × Event} (h : Fresh w) (hs : next L w label = some w') :
    Fresh w' := by
  obtain ⟨k, e⟩ := label
  have hmov := (next_moved hs).moves
  intro id hid
  rw [hmov.table id (.inr hid), h id (Nat.le_trans hmov.nextId hid), ite_self]

/-! ## All or nothing -/

theorem announces_iff {sh : Shared P} : Announces sh topic ↔
    ∀ sh' id key, sh.subscribe (splitTopic topic) = (sh', .ok (id, key)) →
      Announceable sh'.provider topic key := by
  unfold Announces Shared.subscribe
  cases joinSegments (splitTopic topic) with
  | error text => simp [Shared.throws]
  | ok key =>
    simp only [Except.ok.injEq, forall_eq']
    by_cases hc : sh.providerSubscribed.contains key = true
    · simp only [hc, if_true]
      simp [Shared.returns]
    · simp only [hc, Bool.false_eq_true, if_false]
      rcases P.subscribe sh.provider key with ⟨provider, _ | _⟩
      · simp
      · simp

/-- The provider has taken the subscription. -/
theorem allOrNothing_taken (hd : Documented L P) (hfresh : Fresh w)
    (hread : (w.sessions i).reading = true) {f : Frame} {sh : Shared P}
    (hact : act L w.shared (w.sessions i) f = onSubscribe w.shared (w.sessions i) topic)
    (hsub : w.shared.subscribe (splitTopic topic) = (sh, .ok (w.shared.nextId, key)))
    (htable : sh.subscriptionTopic = (w.shared.nextId, key) :: w.shared.subscriptionTopic)
    (hnext : sh.nextId = w.shared.nextId + 1) :
    AllOrNothing L w i f ↔ Announceable sh.provider topic key := by
  have ho : act L w.shared (w.sessions i) f =
      announced sh (w.sessions i) w.shared.nextId topic key := by
    rw [hact, onSubscribe, hsub]
    rfl
  obtain ⟨_, se, heq, hsubs, hsame⟩ := handle_eq_put (L := L) (w := w) (i := i) f
  have hshared : (handle L w i f).shared = sh := by
    rw [heq, ho]
    rfl
  rw [← attempt_announced (L := L) sh (w.sessions i) w.shared.nextId, ← ho]
  refine ⟨?_, ?_⟩
  · intro h
    cases hatt : attempt L (act L w.shared (w.sessions i) f) with
    | ok bytes => exact ⟨bytes, rfl⟩
    | error text =>
      -- the error is answered, with the subscription in the table
      have hans : (answer L (act L w.shared (w.sessions i) f)).isOk = true := by
        rw [answer_isOk_iff hd, ho, announced, speaks_map]
        exact speaks_schemaMembers hd _
      cases hrep : answer L (act L w.shared (w.sessions i) f) with
      | error _ =>
        rw [hrep] at hans
        cases hans
      | ok bytes =>
        have hsame := h.refused text bytes hatt hrep
        rw [hshared, htable] at hsame
        exact absurd (congrArg List.length hsame) (by simp)
  · rintro ⟨_, hatt⟩
    refine ⟨?_, ?_⟩
    · intro text _ herr
      rw [hatt] at herr
      cases herr
    · intro bytes hbytes
      rw [ho] at hbytes
      obtain ⟨j, hj, hdump⟩ := bind_eq_ok_iff.mp hbytes
      obtain ⟨members, -, rfl⟩ := map_eq_ok_iff.mp hj
      refine ⟨w.shared.nextId, topic, key, members, (dump_eq_ok.mp hdump).2.symm,
        hfresh _ (Nat.le_refl _), by rw [hshared, htable], ?_⟩
      have hheld : Held (handle L w i f) i w.shared.nextId := by
        refine ⟨by rw [hshared, hnext]; omega, .inr ?_⟩
        rw [heq, put_self, hsame, hsubs, ho]
        exact ⟨hread, _, mem_cons_self, rfl⟩
      intro _ v hv hclosed
      exact (run_preserves held_next hheld hv).owner.resolve_right fun howner => by
        rw [hclosed] at howner
        exact absurd howner.1 (by decide)

/-- **A subscribe frame** is all or nothing exactly when, should the provider take the
subscription, the reply to it can be built. -/
theorem subscribe_allOrNothing_iff (hd : Documented L P) {provider : P.State}
    {labels : List (Nat × Event)} (hrun : run (next L) (World.start provider) labels = some w)
    (hread : (w.sessions i).reading = true) {data : Bytes}
    (hreq : parseRequest L data = .ok (.subscribe topic)) :
    AllOrNothing L w i (.text data) ↔ Announces w.shared topic := by
  have hact : act L w.shared (w.sessions i) (.text data) =
      onSubscribe w.shared (w.sessions i) topic := by
    rw [act, hreq]
    rfl
  rw [announces_iff]
  rcases w.shared.subscribe_ids (splitTopic topic) with
    ⟨key, hok, htable, hnext⟩ | ⟨⟨text, herr⟩, htable, -⟩
  · have hfresh : Fresh w := run_preserves fresh_next (fun _ _ => rfl) hrun
    rw [allOrNothing_taken hd hfresh hread hact (Prod.ext rfl hok) htable hnext]
    refine ⟨?_, fun h => h _ _ _ (Prod.ext rfl hok)⟩
    intro h sh id key' hsub
    rw [hsub] at h hok
    cases hok
    exact h
  · -- the subscriber refuses, and the table is as it was
    have ho : onSubscribe w.shared (w.sessions i) topic =
        ⟨(w.shared.subscribe (splitTopic topic)).1, w.sessions i, .error text⟩ := by
      rw [onSubscribe]
      split
      · next hsub =>
        rw [hsub] at herr ⊢
        cases herr
        rfl
      · next hsub =>
        rw [hsub] at herr
        cases herr
    refine iff_of_true ⟨?_, ?_⟩ ?_
    · intro _ _ _ _
      obtain ⟨_, _, heq, -, -⟩ := handle_eq_put (L := L) (w := w) (i := i) (.text data)
      rw [heq, hact, ho]
      exact htable
    · intro bytes hbytes
      rw [hact, ho] at hbytes
      cases hbytes
    · intro _ _ _ hsub
      rw [hsub] at herr
      cases herr

/-- Without a schema the reply can always be built. -/
theorem subscribe_allOrNothing_quiet :
    AllOrNothing clientJson (World.start (P := quiet) ()) 0 (.text subscribeText) := by
  have hreq : parseRequest clientJson subscribeText = .ok (.subscribe (ascii "a")) := rfl
  have hrun : run (next clientJson) (World.start (P := quiet) ()) [] = some _ := rfl
  refine (subscribe_allOrNothing_iff (documented_tableJson _) hrun rfl hreq).mpr ?_
  intro key hkey
  cases hkey
  exact fun _ _ => ⟨by decide, nofun⟩

/-- A provider whose topics have a schema that cannot be described to a client. -/
def undescribed : Provider :=
  { quiet with
    arrived := fun _ _ => some ()
    describe := fun _ => .error (ascii "unsupported type") }

/-- The frame is answered with an error, and its subscription is live. -/
theorem refused_subscription_live :
    attempt clientJson (act clientJson (World.start (P := undescribed) ()).shared Session.fresh
        (.text subscribeText)) = .error (ascii "unsupported type") ∧
      (handle clientJson (World.start (P := undescribed) ()) 0 (.text subscribeText)).crashed =
        none ∧
      (handle clientJson (World.start (P := undescribed) ()) 0
        (.text subscribeText)).shared.topicOf 1 = some (ascii "a") ∧
      ¬ AllOrNothing clientJson (World.start (P := undescribed) ()) 0 (.text subscribeText) := by
  refine ⟨rfl, rfl, rfl, ?_⟩
  intro h
  have htable := h.refused (ascii "unsupported type") [] rfl rfl
  cases htable

end Fletcher.Gateway
