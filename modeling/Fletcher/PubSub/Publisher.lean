import Fletcher.Lib.Transition
import Fletcher.PubSub.Seam

/-!
# The publisher

`Publisher::CreateTopic` keeps a record per topic and asks the provider once. The record
goes in *before* the provider is asked, under the lock, and comes out again, under the lock,
if the provider throws. Between the two the lock is free, so another call can find a record
the provider has not accepted yet, and may never accept.

A call is one of any number in progress, on whatever thread. It takes at most three steps:
the locked section it starts with, the provider's answer, which is arbitrary, and what
follows the answer. The declarations the provider has accepted are kept beside the state of
the code, for the theorems only.
-/

namespace Fletcher.PubSub.Publisher

open Lib Utf8 Fletcher.Core List

variable (L : SchemaLib)

/-- What a call of `CreateTopic` declares, with its segments joined. -/
structure Declaration where
  key : Bytes
  schema : Option L.Schema
  options : TopicOptions

structure TopicEntry where
  schema : DeclaredSchema
  options : TopicOptions
  deriving DecidableEq, Repr

def Declaration.entry {L : SchemaLib} (d : Declaration L) : TopicEntry :=
  ⟨L.encode d.schema, d.options⟩

/-- Where a call stands. -/
inductive Call where
  | idle
  /-- In `CreateTopicWithOptions` of the provider, undecided. -/
  | inProvider (d : Declaration L)
  /-- The provider has accepted, and the call is about to return. -/
  | accepted (d : Declaration L)
  /-- The provider has thrown, and the record is still there. -/
  | failed (d : Declaration L)

abbrev CallId := Nat

structure State where
  topics : List (Bytes × TopicEntry) := []
  calls : CallId → Call L := fun _ => .idle
  /-- What the provider has accepted. -/
  accepted : List (Declaration L) := []

inductive Event where
  | call (t : CallId) (segments : List Bytes) (schema : Option L.Schema) (options : TopicOptions)
  | answer (t : CallId) (accepts : Bool)
  | resume (t : CallId)

/-- What a step means to the caller. -/
inductive Outcome where
  | running
  | threw
  | returned (d : Declaration L)

variable {L}

/-- `topics.find`. -/
def find (key : Bytes) (topics : List (Bytes × TopicEntry)) : Option TopicEntry :=
  (topics.find? fun p => p.1 = key).map Prod.snd

/-- `topics.erase`. -/
def erase (key : Bytes) (topics : List (Bytes × TopicEntry)) : List (Bytes × TopicEntry) :=
  topics.filter fun p => p.1 ≠ key

/-- The locked section of `CreateTopic`: refused, known, or recorded. -/
def record (d : Declaration L) (topics : List (Bytes × TopicEntry)) :
    Except PubSubError (Option (List (Bytes × TopicEntry))) :=
  match find d.key topics with
  | some entry =>
    if (L.encode d.schema).conflictsWith entry.schema then
      .error ⟨.schemaConflict,
        ascii "Publisher: topic already declared with a conflicting schema: " ++ d.key⟩
    else if optionsConflict d.options entry.options then
      .error ⟨.invalidArgument,
        ascii "Publisher: topic already declared with different options: " ++ d.key⟩
    else .ok none
  | none => .ok (some ((d.key, d.entry) :: topics))

namespace State

/-- `ListTopics`. -/
def listTopics (s : State L) : List Bytes := s.topics.map Prod.fst

def setCall (s : State L) (t : CallId) (c : Call L) : State L :=
  { s with calls := Function.update s.calls t c }

/-- One step of one call. -/
def next (s : State L) : Event L → Option (State L × Outcome L)
  | .call t segments schema options =>
    match s.calls t, joinSegments segments with
    | .idle, .ok key =>
      match record ⟨key, schema, options⟩ s.topics with
      | .error _ => some (s, .threw)
      | .ok none => some (s, .returned ⟨key, schema, options⟩)
      | .ok (some topics) =>
        some ({ s.setCall t (.inProvider ⟨key, schema, options⟩) with topics }, .running)
    | .idle, .error _ => some (s, .threw)
    | _, _ => none
  | .answer t accepts =>
    match s.calls t with
    | .inProvider d =>
      if accepts then
        some ({ s.setCall t (.accepted d) with accepted := d :: s.accepted }, .running)
      else some (s.setCall t (.failed d), .running)
    | _ => none
  | .resume t =>
    match s.calls t with
    | .accepted d => some (s.setCall t .idle, .returned d)
    | .failed d => some ({ s.setCall t .idle with topics := erase d.key s.topics }, .threw)
    | _ => none

def step (s : State L) (e : Event L) : Option (State L) := (s.next e).map Prod.fst

/-! ## What is asked of it -/

/-- No call is in progress. -/
def Quiet (s : State L) : Prop := ∀ t, s.calls t = .idle

/-- A call on the topic waits for the provider's answer, or has not taken its record back
after a failure. -/
def Undecided (s : State L) (key : Bytes) : Prop :=
  ∃ t d, d.key = key ∧ (s.calls t = .inProvider d ∨ s.calls t = .failed d)

end State

/-- The same schema, or two with the same IPC form. -/
def SameSchema (a b : Option L.Schema) : Prop :=
  a = b ∨ (L.encode a).encodable = true ∧ L.encode a = L.encode b

/-- The same schema, or two that have an IPC form to compare. -/
def Comparable (a b : Option L.Schema) : Prop :=
  a = b ∨ (L.encode a).encodable = true ∧ (L.encode b).encodable = true

namespace State

/-- The provider has accepted the topic with an equal schema and compatible options. -/
def Backed (s : State L) (d : Declaration L) : Prop :=
  ∃ a ∈ s.accepted, a.key = d.key ∧ SameSchema a.schema d.schema ∧
    optionsConflict d.options a.options = false

/-- A call that finds its topic recorded finds it decided, and can compare its schema with
the accepted one. -/
def Settled (s : State L) : Event L → Prop
  | .call _ segments schema _ => ∀ key, joinSegments segments = .ok key →
    ¬s.Undecided key ∧ ∀ a ∈ s.accepted, a.key = key → Comparable a.schema schema
  | _ => True

end State

/-! ## Records -/

section Records

variable {d : Declaration L} {key : Bytes} {entry : TopicEntry}
  {topics topics' : List (Bytes × TopicEntry)}

theorem mem_of_find (h : find key topics = some entry) : (key, entry) ∈ topics := by
  unfold find at h
  obtain ⟨p, hfind, hent⟩ := Option.map_eq_some_iff.mp h
  have hkey : p.1 = key := by simpa using find?_some hfind
  subst hkey hent
  exact mem_of_find?_eq_some hfind

theorem key_ne_of_find_none (h : find key topics = none) {p : Bytes × TopicEntry}
    (hp : p ∈ topics) : p.1 ≠ key := by
  unfold find at h
  have hnone := find?_eq_none.mp (Option.map_eq_none_iff.mp h) p hp
  simpa using hnone

theorem mem_erase {p : Bytes × TopicEntry} : p ∈ erase key topics ↔ p ∈ topics ∧ p.1 ≠ key := by
  simp [erase]

/-- A call returns at once on a record it does not conflict with. -/
theorem record_known (h : record d topics = .ok none) :
    ∃ entry, (d.key, entry) ∈ topics ∧ (L.encode d.schema).conflictsWith entry.schema = false ∧
      optionsConflict d.options entry.options = false := by
  unfold record at h
  split at h
  · next entry hfind =>
    split at h
    · cases h
    · next hsch =>
      split at h
      · cases h
      · next hopt => exact ⟨entry, mem_of_find hfind, by simpa using hsch, by simpa using hopt⟩
  · cases h

theorem record_new (h : record d topics = .ok (some topics')) :
    topics' = (d.key, d.entry) :: topics ∧ ∀ p ∈ topics, p.1 ≠ d.key := by
  unfold record at h
  split at h
  · split at h
    · cases h
    · split at h <;> cases h
  · next hfind =>
    cases h
    exact ⟨rfl, fun p hp => key_ne_of_find_none hfind hp⟩

/-- Schemas that do not conflict are equal exactly when they can be compared. -/
theorem sameSchema_iff_comparable {a b : Option L.Schema}
    (h : (L.encode b).conflictsWith (L.encode a) = false) : SameSchema a b ↔ Comparable a b := by
  constructor
  · intro hsame
    rcases hsame with heq | ⟨henc, hform⟩
    · exact .inl heq
    · exact .inr ⟨henc, hform ▸ henc⟩
  · intro hcom
    rcases hcom with heq | ⟨ha, hb⟩
    · exact .inl heq
    · exact .inr ⟨ha, ((DeclaredSchema.conflictsWith_eq_false_iff hb ha).mp h).symm⟩

end Records

/-! ## Steps -/

/-- Everything a step can do. -/
inductive Steps (s : State L) : Event L → State L → Outcome L → Prop
  /-- The segments or the record refuse the call. -/
  | refused (t segments schema options) : Steps s (.call t segments schema options) s .threw
  | known (t segments key schema options entry) (join : joinSegments segments = .ok key)
    (recorded : (key, entry) ∈ s.topics)
    (same : (L.encode schema).conflictsWith entry.schema = false)
    (compatible : optionsConflict options entry.options = false) :
    Steps s (.call t segments schema options) s (.returned ⟨key, schema, options⟩)
  | recorded (t segments schema options) (d : Declaration L) (idle : s.calls t = .idle)
    (absent : ∀ p ∈ s.topics, p.1 ≠ d.key) :
    Steps s (.call t segments schema options)
      { s.setCall t (.inProvider d) with topics := (d.key, d.entry) :: s.topics } .running
  | accepted (t d) (asked : s.calls t = .inProvider d) :
    Steps s (.answer t true)
      { s.setCall t (.accepted d) with accepted := d :: s.accepted } .running
  | failed (t d) (asked : s.calls t = .inProvider d) :
    Steps s (.answer t false) (s.setCall t (.failed d)) .running
  | returned (t d) (decided : s.calls t = .accepted d) :
    Steps s (.resume t) (s.setCall t .idle) (.returned d)
  | erased (t d) (decided : s.calls t = .failed d) :
    Steps s (.resume t) { s.setCall t .idle with topics := erase d.key s.topics } .threw

theorem steps_of_next {s s' : State L} {e : Event L} {o : Outcome L}
    (h : s.next e = some (s', o)) : Steps s e s' o := by
  cases e with
  | call t segments schema options =>
    unfold State.next at h
    dsimp only at h
    split at h
    · next key hcall hjoin =>
      split at h
      · cases h
        exact .refused t segments schema options
      · next hrec =>
        cases h
        obtain ⟨entry, hmem, hsame, hcom⟩ := record_known hrec
        exact .known t segments key schema options entry hjoin hmem hsame hcom
      · next topics hrec =>
        cases h
        obtain ⟨htop, habs⟩ := record_new hrec
        subst htop
        exact .recorded t segments schema options ⟨key, schema, options⟩ hcall habs
    · cases h
      exact .refused t segments schema options
    · cases h
  | answer t accepts =>
    unfold State.next at h
    dsimp only at h
    split at h
    · next d hcall =>
      cases accepts with
      | true => cases h; exact .accepted t d hcall
      | false => cases h; exact .failed t d hcall
    · cases h
  | resume t =>
    unfold State.next at h
    dsimp only at h
    split at h
    · next d hcall => cases h; exact .returned t d hcall
    · next d hcall => cases h; exact .erased t d hcall
    · cases h

/-! ## The invariant -/

/-- Who holds the record of a declaration: a call that is undecided about it, or the provider,
which has accepted it. -/
def State.Holds (s : State L) : Option CallId → Declaration L → Prop
  | some t, d => s.calls t = .inProvider d ∨ s.calls t = .failed d
  | none, d => d ∈ s.accepted

/-- Every record has one holder. -/
structure Inv (s : State L) : Prop where
  keys : s.listTopics.Nodup
  held : ∀ p ∈ s.topics, ∃ o d, s.Holds o d ∧ d.key = p.1
  recorded : ∀ o d, s.Holds o d → (d.key, d.entry) ∈ s.topics
  single : ∀ o o' d d', s.Holds o d → s.Holds o' d' → d.key = d'.key → o = o' ∧ d = d'
  returning : ∀ t d, s.calls t = .accepted d → d ∈ s.accepted

theorem inv_init : Inv ({} : State L) := by
  have hnone : ∀ o d, ¬({} : State L).Holds o d := by
    intro o d h
    cases o with
    | none => cases h
    | some t => rcases h with h | h <;> cases h
  exact ⟨.nil, nofun, fun o d h => absurd h (hnone o d),
    fun o _ d _ h => absurd h (hnone o d), nofun⟩

section Preservation

variable {s s' : State L} {t : CallId} {d : Declaration L}

theorem holds_call_unique {d' : Declaration L} (h : s.Holds (some t) d)
    (h' : s.Holds (some t) d') : d = d' := by
  rcases h with h | h <;> rcases h' with h' | h' <;> cases h.symm.trans h' <;> rfl

/-- A step of the call `t` takes away what it holds, and gives it or a new record to `new`, if
to anyone. -/
theorem Inv.passes (h : Inv s) (t : CallId) (new : Option (Option CallId × Declaration L))
    (hhold : ∀ o d, s'.Holds o d ↔ s.Holds o d ∧ o ≠ some t ∨ new = some (o, d))
    (hkeys : s'.listTopics.Nodup)
    (htop : ∀ p, p ∈ s'.topics ↔ (p ∈ s.topics ∧ ∀ d, s.Holds (some t) d → p.1 ≠ d.key) ∨
      ∃ o d, new = some (o, d) ∧ p = (d.key, d.entry))
    (hnew : ∀ o d, new = some (o, d) → ∀ o' d', s.Holds o' d' → d'.key = d.key → o' = some t)
    (hret : ∀ t d, s'.calls t = .accepted d → d ∈ s'.accepted) : Inv s' where
  keys := hkeys
  held := by
    intro p hp
    rcases (htop p).mp hp with ⟨hp, hne⟩ | ⟨o, d, hd, heq⟩
    · obtain ⟨o, d, hd, hkey⟩ := h.held p hp
      refine ⟨o, d, (hhold o d).mpr (.inl ⟨hd, ?_⟩), hkey⟩
      intro ho
      exact hne d (ho ▸ hd) hkey.symm
    · exact ⟨o, d, (hhold o d).mpr (.inr hd), by rw [heq]⟩
  recorded := by
    intro o d hd
    rcases (hhold o d).mp hd with ⟨hd, ho⟩ | hd
    · refine (htop _).mpr (.inl ⟨h.recorded o d hd, ?_⟩)
      intro d' hd' hkey
      exact ho (h.single o (some t) d d' hd hd' hkey).1
    · exact (htop _).mpr (.inr ⟨o, d, hd, rfl⟩)
  single := by
    intro o o' d d' hd hd' hkey
    rcases (hhold o d).mp hd with ⟨hd, ho⟩ | hd
    · rcases (hhold o' d').mp hd' with ⟨hd', _⟩ | hd'
      · exact h.single o o' d d' hd hd' hkey
      · exact absurd (hnew o' d' hd' o d hd hkey) ho
    · rcases (hhold o' d').mp hd' with ⟨hd', ho'⟩ | hd'
      · exact absurd (hnew o d hd o' d' hd' hkey.symm) ho'
      · cases hd.symm.trans hd'
        exact ⟨rfl, rfl⟩
  returning := hret

/-- The record passes from the call to another holder. -/
theorem Inv.handed (h : Inv s) (hd : s.Holds (some t) d) {o : Option CallId}
    (hhold : ∀ o' d', s'.Holds o' d' ↔ s.Holds o' d' ∧ o' ≠ some t ∨ some (o, d) = some (o', d'))
    (htop : s'.topics = s.topics)
    (hret : ∀ t d, s'.calls t = .accepted d → d ∈ s'.accepted) : Inv s' := by
  refine h.passes t (some (o, d)) hhold (by rw [State.listTopics, htop]; exact h.keys) ?_ ?_ hret
  · intro p
    rw [htop]
    constructor
    · intro hp
      by_cases hkey : p.1 = d.key
      · exact .inr ⟨o, d, rfl, inj_on_of_nodup_map h.keys hp (h.recorded _ d hd) hkey⟩
      · refine .inl ⟨hp, ?_⟩
        intro d' hd'
        rwa [holds_call_unique hd' hd]
    · intro hp
      rcases hp with ⟨hp, _⟩ | ⟨_, _, heq, rfl⟩
      · exact hp
      · cases heq
        exact h.recorded _ d hd
  · intro _ _ heq o' d' hd' hkey
    cases heq
    exact (h.single o' (some t) d' d hd' hd hkey).1

/-- What is held after the call `t` has moved. -/
theorem holds_setCall (c : Call L) (topics : List (Bytes × TopicEntry)) (o : Option CallId)
    (d : Declaration L) : State.Holds { s.setCall t c with topics } o d ↔
      s.Holds o d ∧ o ≠ some t ∨ o = some t ∧ (c = .inProvider d ∨ c = .failed d) := by
  cases o with
  | none => simp [State.Holds, State.setCall]
  | some t' =>
    by_cases ht : t' = t
    · subst ht
      simp [State.Holds, State.setCall]
    · simp [State.Holds, State.setCall, ht]

theorem Inv.returning_setCall (h : Inv s) {c : Call L} {accepted : List (Declaration L)}
    (hsub : ∀ d ∈ s.accepted, d ∈ accepted) (hc : ∀ d, c = .accepted d → d ∈ accepted) (t' : CallId)
    (d : Declaration L) (hd : (s.setCall t c).calls t' = .accepted d) : d ∈ accepted := by
  dsimp only [State.setCall] at hd
  by_cases ht : t' = t
  · subst ht
    rw [Function.update_self] at hd
    exact hc d hd
  · rw [Function.update_of_ne ht] at hd
    exact hsub d (h.returning t' d hd)

/-- A call that holds nothing moves, and still holds nothing. -/
theorem Inv.released (h : Inv s) (hnone : ∀ d, ¬s.Holds (some t) d) : Inv (s.setCall t .idle) := by
  refine h.passes t none (fun o d => ?_) h.keys (fun p => ?_) nofun
    (h.returning_setCall (fun _ => id) nofun)
  · refine (holds_setCall .idle s.topics o d).trans ?_
    simp
  · simp [hnone, State.setCall]

end Preservation

theorem inv_steps {s s' : State L} {e : Event L} {o : Outcome L} (h : Inv s)
    (hstep : Steps s e s' o) : Inv s' := by
  cases hstep with
  | refused _ _ _ _ => exact h
  | known _ _ _ _ _ _ _ _ _ _ => exact h
  | recorded t _ _ _ d idle absent =>
    have hnone : ∀ d, ¬s.Holds (some t) d := by simp [State.Holds, idle]
    refine h.passes t (some (some t, d)) (fun o d' => ?_) ?_ (fun p => ?_) ?_
      (h.returning_setCall (fun _ => id) nofun)
    · rw [holds_setCall]
      simp [eq_comm]
    · refine nodup_cons.mpr ⟨?_, h.keys⟩
      intro hmem
      obtain ⟨p, hp, hkey⟩ := mem_map.mp hmem
      exact absent p hp hkey
    · simp [hnone, or_comm]
    · intro _ _ heq o' d' hd' hkey
      cases heq
      exact absurd hkey (absent _ (h.recorded o' d' hd'))
  | accepted t d asked =>
    refine h.handed (.inl asked) (o := none) (fun o d' => ?_) rfl
      (h.returning_setCall (fun _ => mem_cons_of_mem d) fun _ heq => ?_)
    · have hold := holds_setCall (s := s) (t := t) (.accepted d) s.topics o d'
      cases o with
      | none => simp [State.Holds, eq_comm, or_comm]
      | some t' => simpa [State.Holds] using hold
    · cases heq
      exact mem_cons_self
  | failed t d asked =>
    refine h.handed (.inl asked) (o := some t) (fun o d' => ?_) rfl
      (h.returning_setCall (fun _ => id) nofun)
    refine (holds_setCall (.failed d) s.topics o d').trans ?_
    simp [eq_comm]
  | returned t d decided => exact h.released (by simp [State.Holds, decided])
  | erased t d decided =>
    have hheld : ∀ d', s.Holds (some t) d' ↔ d = d' := by simp [State.Holds, decided]
    refine h.passes t none (fun o d' => ?_) (h.keys.sublist (filter_sublist.map _))
      (fun p => ?_) nofun (h.returning_setCall (fun _ => id) nofun)
    · rw [holds_setCall]
      simp
    · simp [hheld, mem_erase]

theorem inv_step {s s' : State L} {e : Event L} (h : Inv s) (hstep : s.step e = some s') :
    Inv s' := by
  unfold State.step at hstep
  obtain ⟨⟨_, o⟩, hnext, heq⟩ := Option.map_eq_some_iff.mp hstep
  cases heq
  exact inv_steps h (steps_of_next hnext)

/-! ## Returns -/

/-- The record of a topic is the one of the declaration the provider accepted. -/
theorem Inv.entry_of_accepted {s : State L} (h : Inv s) {a : Declaration L}
    (ha : a ∈ s.accepted) {entry : TopicEntry} (hent : (a.key, entry) ∈ s.topics) :
    entry = a.entry := by
  have heq := inj_on_of_nodup_map h.keys hent (h.recorded none a ha) rfl
  exact congrArg Prod.snd heq

/-- A call that returns at once is backed exactly when its topic is decided and its schema
can be compared. -/
theorem Inv.known_backed_iff {s : State L} (h : Inv s) {d : Declaration L} {entry : TopicEntry}
    (hrec : (d.key, entry) ∈ s.topics)
    (hsame : (L.encode d.schema).conflictsWith entry.schema = false)
    (hcom : optionsConflict d.options entry.options = false) :
    s.Backed d ↔ ¬s.Undecided d.key ∧
      ∀ a ∈ s.accepted, a.key = d.key → Comparable a.schema d.schema := by
  have hiff : ∀ a ∈ s.accepted, a.key = d.key →
      (SameSchema a.schema d.schema ↔ Comparable a.schema d.schema) := by
    intro a ha hkey
    have hent := h.entry_of_accepted ha (hkey ▸ hrec)
    rw [hent] at hsame
    exact sameSchema_iff_comparable hsame
  constructor
  · intro hbkd
    obtain ⟨a, ha, hkey, hsch, _⟩ := hbkd
    refine ⟨?_, ?_⟩
    · intro hund
      obtain ⟨t, d', hkey', hd'⟩ := hund
      cases (h.single none (some t) a d' ha hd' (hkey.trans hkey'.symm)).1
    · intro b hb hkeyb
      rw [(h.single none none b a hb ha (hkeyb.trans hkey.symm)).2]
      exact (hiff a ha hkey).mp hsch
  · intro hset
    obtain ⟨hdec, hcomp⟩ := hset
    -- the record is of the accepted declaration, since nobody else owns it
    obtain ⟨_ | t, a, ha, hkey⟩ := h.held _ hrec
    · have hent : entry = a.entry := h.entry_of_accepted ha (by rw [hkey]; exact hrec)
      refine ⟨a, ha, hkey, (hiff a ha hkey).mpr (hcomp a ha hkey), ?_⟩
      rw [hent] at hcom
      exact hcom
    · exact absurd ⟨t, a, hkey, ha⟩ hdec

/-- **Creating topics.** In every interleaving, a call that returns is backed by the
provider exactly when it had its topic accepted itself or found it settled; and when no call
is in progress, only topics the provider has accepted are listed. -/
theorem createTopic_backed_iff {s : State L} (hreach : Reaches State.step {} s) :
    (∀ e s' d, s.next e = some (s', .returned d) → (s'.Backed d ↔ s.Settled e)) ∧
      (s.Quiet → ∀ key ∈ s.listTopics, ∃ a ∈ s.accepted, a.key = key) := by
  have hinv : Inv s := hreach.preserves inv_step inv_init
  refine ⟨?_, ?_⟩
  · intro e s' d hnext
    cases steps_of_next hnext with
    | known t _ key schema options _ join recorded same compatible =>
      have hiff := hinv.known_backed_iff (d := ⟨key, schema, options⟩) recorded same compatible
      rw [hiff]
      constructor
      · intro hsettled _ hkey'
        cases join.symm.trans hkey'
        exact hsettled
      · intro hsettled
        exact hsettled key join
    | returned t d decided =>
      have hmem := hinv.returning t d decided
      refine iff_of_true ⟨d, hmem, rfl, .inl rfl, ?_⟩ trivial
      simp [optionsConflict]
  · intro hquiet key hkey
    obtain ⟨p, hp, hpkey⟩ := mem_map.mp hkey
    obtain ⟨_ | t, a, ha, hakey⟩ := hinv.held p hp
    · exact ⟨a, ha, hakey.trans hpkey⟩
    · simp [State.Holds, hquiet t] at ha

/-! ## Two calls on one topic -/

/-- A library with one schema. -/
def oneSchema : SchemaLib where
  Schema := Unit
  serializeIpc _ := .ok [1]
  serializeIpc_ne_nil := ne_nil_of_singleton

/-- A call that declares the topic `a`. -/
def createA (t : CallId) : Event oneSchema := .call t [[97]] (some ()) ⟨"", 0⟩

/-- The state after the events. -/
def after (es : List (Event oneSchema)) : State oneSchema := (run State.step {} es).getD {}

theorem createTopic_backed_twice :
    (after [createA 0, .answer 0 true, .resume 0]).Backed ⟨[97], some (), ⟨"", 0⟩⟩ := by
  have hreach : Reaches State.step {} (after [createA 0, .answer 0 true, .resume 0]) :=
    ⟨[createA 0, .answer 0 true, .resume 0], rfl⟩
  have hiff := (createTopic_backed_iff hreach).1 (createA 1)
    (after [createA 0, .answer 0 true, .resume 0]) ⟨[97], some (), ⟨"", 0⟩⟩ rfl
  have hidle : ∀ t, (after [createA 0, .answer 0 true, .resume 0]).calls t = .idle := by
    intro t
    by_cases ht : t = 0
    · subst ht
      rfl
    · show Function.update
        (Function.update (Function.update (fun _ => Call.idle) 0 _) 0 _) 0 _ t = _
      simp [Function.update_of_ne ht]
  refine hiff.mpr ?_
  intro _ _
  refine ⟨?_, ?_⟩
  · intro h
    obtain ⟨t, d, _, hcall⟩ := h
    rw [hidle t] at hcall
    rcases hcall with hcall | hcall
    · cases hcall
    · cases hcall
  · intro a ha _
    cases mem_singleton.mp ha
    exact .inl rfl

/-- The second call returns while the first waits for the provider, which then throws: the
second caller was told the topic is there, and no declaration of it was ever accepted. -/
theorem returned_unaccepted :
    (∃ d, (after [createA 0]).next (createA 1) = some (after [createA 0, createA 1], .returned d)) ∧
      (after [createA 0, createA 1, .answer 0 false, .resume 0]).accepted.length = 0 ∧
      (after [createA 0, createA 1, .answer 0 false, .resume 0]).listTopics = [] := by
  refine ⟨⟨_, rfl⟩, ?_, ?_⟩
  · rfl
  · rfl

end Fletcher.PubSub.Publisher
