import Fletcher.Lib.Transition
import Fletcher.PubSub.Subscriber

/-!
# The cancel promise

When `Unsubscribe(id)` returns outside every delivery on the Subscriber, the
callback of `id` is not running anywhere and never runs again.

The promise is the predicate `Quiet`: the subscription is retired and no frame of
any thread is inside its callback. No step can undo it, because the only step
into a callback reads `retired` first, so it is enough that the call returns in a
quiet state. That is what the invariant is for:

* a frame in or past a drain knows how far it came (`FrameOk`);
* whoever is in a callback holds its gate, so a retired id with a free gate is
  quiet (`Inv.quiet_of_free`) — the barrier;
* an issued id is live, retiring or quiet (`Inv.states`) — so a cancel that finds
  neither map has nothing to wait for;
* the entries of a topic are exactly its live ids, in order, and an id that anybody
  has begun to withdraw is not live (`Tables`).

What a step does is said once (`evolves_step`): it is followed update by update, and
`Evolves` is what has held of the thread's updates so far.
-/

namespace Fletcher.PubSub

open List State

variable {Topic Sample : Type} {r s s' s'' : State Topic Sample} {t : ThreadId} {n : Nat}
  {id : SubId} {below st : List (Frame Topic Sample)} {f : Frame Topic Sample}

/-- `Subscribe` has handed `id` out. -/
def State.Issued (s : State Topic Sample) (id : SubId) : Prop := 0 < id ∧ id < s.nextId

/-- Some thread is inside the callback of `id`. -/
def State.Runs (s : State Topic Sample) (id : SubId) : Prop :=
  ∃ u, ∃ f ∈ s.stack u, f.runs = some id

/-- Retired, and no thread is inside the callback. -/
def State.Quiet (s : State Topic Sample) (id : SubId) : Prop := s.retired id = true ∧ ¬ s.Runs id

/-- `id` was issued for `topic`: if it is still live, that is where. -/
def State.OnTopic (s : State Topic Sample) (id : SubId) (topic : Topic) : Prop :=
  s.Issued id ∧ ∀ tp, s.subscriptionTopic id = some tp → tp = topic

/-- Issued, and not live any more. -/
def State.Dead (s : State Topic Sample) (id : SubId) : Prop :=
  s.subscriptionTopic id = none ∧ id < s.nextId

/-- Somebody has withdrawn `id`. -/
def State.Withdrawn (s : State Topic Sample) (id : SubId) : Prop :=
  s.retired id = true ∨ s.retirements id = true

def DrainOk (s : State Topic Sample) (id : SubId) : DrainPc → Prop
  | .retire => s.Dead id
  | .ask | .barrier => s.retired id = true

/-- What the frames below a frame and the shared state know about where it stands. -/
def FrameOk (s : State Topic Sample) (below : List (Frame Topic Sample)) :
    Frame Topic Sample → Prop
  | .unsubscribe id (.drain _ pc) => DrainOk s id pc
  | .unsubscribe id (.finish _ false) => s.Quiet id
  | .unsubscribe _ (.finish _ true) => insideDeliveryOn .subscriber below = true
  | .unsubscribe id .inProvider => insideDeliveryOn .subscriber below = true ∨ s.Quiet id
  | .subscribe topic _ id .waiting | .subscribe topic _ id .inProvider => s.OnTopic id topic
  | .subscribe _ _ id (.drain pc) => DrainOk s id pc
  | .subscribe _ _ id .release => s.Quiet id
  | .sweep due drained =>
    (∀ id ∈ due, s.retired id = true) ∧ (drained = true → ∀ id ∈ due.head?, s.Quiet id)
  | _ => True

def StackOk (s : State Topic Sample) : List (Frame Topic Sample) → Prop
  | [] => True
  | f :: below => FrameOk s below f ∧ StackOk s below

/-- What the two tables and the retirements say together. -/
structure Tables (s : State Topic Sample) : Prop where
  live : ∀ id topic, s.subscriptionTopic id = some topic ↔ id ∈ (s.topics topic).entries
  /-- A fan-out is in the order of its subscriptions. -/
  ordered : ∀ topic, (s.topics topic).entries.Pairwise (· < ·)
  start : 0 < s.nextId
  issued : ∀ id topic, s.subscriptionTopic id = some topic → s.Issued id
  gone : ∀ id, s.Withdrawn id → s.Dead id

/-- The invariant of every reachable state. -/
structure Inv (s : State Topic Sample) : Prop extends Tables s where
  /-- A frame that holds a gate is its holder. -/
  held : ∀ u, ∀ f ∈ s.stack u, ∀ id, f.holds = some id → s.gate id = some u
  /-- A gate is not recursive. -/
  once : ∀ u, ((s.stack u).filterMap Frame.holds).Nodup
  /-- Live, retiring and gone have no window between them. -/
  states : ∀ id, s.Issued id →
    (s.subscriptionTopic id).isSome ∨ s.retirements id = true ∨ s.Quiet id
  frames : ∀ u, StackOk s (s.stack u)
  owed : ∀ u, ∀ id ∈ s.deferred u, s.retired id = true

/-- Nothing that frames rely on is lost. -/
structure Stable (s s' : State Topic Sample) : Prop where
  retired : ∀ {id}, s.retired id = true → s'.retired id = true
  quiet : ∀ {id}, s.Quiet id → s'.Quiet id
  onTopic : ∀ {id topic}, s.OnTopic id topic → s'.OnTopic id topic
  dead : ∀ {id}, s.Dead id → s'.Dead id

/-- What thread `t` has made of `r` so far, with the frames `below` untouched: `n` failures
were absorbed, and the other threads are where they were. -/
structure Evolves (t : ThreadId) (below : List (Frame Topic Sample)) (n : Nat)
    (r s : State Topic Sample) : Prop extends Stable r s where
  inv : Inv s
  keeps : below <:+ s.stack t
  others : ∀ u, u ≠ t → s.stack u = r.stack u
  absorbed : s.absorbed = r.absorbed + n

theorem Inv.evolves (hi : Inv s) (hb : below <:+ s.stack t) : Evolves t below 0 s s :=
  ⟨⟨id, id, id, id⟩, hi, hb, fun _ _ => rfl, rfl⟩

/-- One more update. -/
theorem Evolves.update (h : Evolves t below n r s) (hs : Stable s s') (hi : Inv s')
    (hb : below <:+ s'.stack t) (hoth : ∀ u, u ≠ t → s'.stack u = s.stack u)
    (habs : s'.absorbed = s.absorbed) : Evolves t below n r s' where
  retired hr := hs.retired (h.retired hr)
  quiet hq := hs.quiet (h.quiet hq)
  onTopic hon := hs.onTopic (h.onTopic hon)
  dead hd := hs.dead (h.dead hd)
  inv := hi
  keeps := hb
  others u hu := (hoth u hu).trans (h.others u hu)
  absorbed := habs.trans h.absorbed

/-! ## Frames and stacks -/

theorem Frame.holds_of_runs (h : f.runs = some id) : f.holds = some id := by
  unfold Frame.runs at h
  split at h
  · simpa [Frame.holds] using h
  · cases h

theorem Frame.runs_of_holds_none (h : f.holds = none) : f.runs ≠ some id := by
  intro hr
  rw [Frame.holds_of_runs hr] at h
  cases h

theorem DrainOk.mono (hs : Stable s s') {pc : DrainPc} (h : DrainOk s id pc) :
    DrainOk s' id pc := by
  cases pc with
  | retire => exact hs.dead h
  | ask => exact hs.retired h
  | barrier => exact hs.retired h

theorem FrameOk.mono (hs : Stable s s') (h : FrameOk s below f) : FrameOk s' below f := by
  cases f with
  | scope _ => trivial
  | fanout _ _ _ => trivial
  | unsubscribe id pc =>
    cases pc with
    | lookup => trivial
    | drain _ pc => exact DrainOk.mono hs h
    | finish _ isDeferred =>
      cases isDeferred with
      | false => exact hs.quiet h
      | true => exact h
    | inProvider => exact Or.imp_right hs.quiet h
  | subscribe _ _ id pc =>
    cases pc with
    | waiting => exact hs.onTopic h
    | inProvider => exact hs.onTopic h
    | drain pc => exact DrainOk.mono hs h
    | release => exact hs.quiet h
  | sweep _ _ =>
    exact ⟨fun id hid => hs.retired (h.1 id hid), fun hd id hid => hs.quiet (h.2 hd id hid)⟩

theorem StackOk.mono (hs : Stable s s') (h : StackOk s st) : StackOk s' st := by
  induction st with
  | nil => trivial
  | cons f _ ih => exact ⟨h.1.mono hs, ih h.2⟩

theorem StackOk.suffix (h : StackOk s st) (hb : below <:+ st) : StackOk s below := by
  obtain ⟨above, rfl⟩ := hb
  induction above with
  | nil => exact h
  | cons f above ih => exact ih h.2

/-- **The barrier.** Whoever is inside a callback holds its gate. -/
theorem Inv.quiet_of_free (hi : Inv s) (hr : s.retired id = true) (hg : s.gate id = none) :
    s.Quiet id := by
  refine ⟨hr, ?_⟩
  rintro ⟨u, f, hf, hruns⟩
  have := hi.held u f hf id (Frame.holds_of_runs hruns)
  rw [hg] at this
  cases this

theorem Inv.top (hi : Inv s) (hst : s.stack t = f :: below) : FrameOk s below f :=
  (hst ▸ hi.frames t).1

/-- Whether a handler invocation throws. -/
def Action.throws : Action Topic Sample → Bool
  | .handlerReturns true => true
  | _ => false

/-- The frames a step of a thread leaves where they are: a call leaves its caller's. -/
def Action.keeps (st : List (Frame Topic Sample)) : Action Topic Sample → List (Frame Topic Sample)
  | .deliver _ _ | .enterScope _ | .subscribe _ _ | .unsubscribe _ => st
  | _ => st.tail

theorem Action.tail_suffix_keeps (st : List (Frame Topic Sample)) (a : Action Topic Sample) :
    st.tail <:+ a.keeps st := by
  cases a <;> simp [Action.keeps, tail_suffix]

/-- A step that returns from a frame is not a call made from it. -/
theorem not_keeps (hst : s.stack t = f :: below) (hret : s'.stack t = below) :
    ¬ s.stack t <:+ s'.stack t := by
  rw [hst, hret]
  exact fun hsuf => Nat.not_succ_le_self _ hsuf.length_le

@[simp] theorem setRetired_retired : (s.setRetired id).retired id = true := by
  simp [setRetired]

@[simp] theorem setStack_stack : (s.setStack t st).stack t = st := by simp [setStack]

theorem setStack_other {u : ThreadId} (hu : u ≠ t) : (s.setStack t st).stack u = s.stack u := by
  simp [setStack, hu]

section

variable [DecidableEq Topic] {topic : Topic}

theorem withdraw_live (i : SubId) : (s.withdraw id topic).subscriptionTopic i =
    if i = id then none else s.subscriptionTopic i := Function.update_apply ..

theorem withdraw_entries (tp : Topic) : ((s.withdraw id topic).topics tp).entries =
    if tp = topic then (s.topics tp).entries.filter (· != id) else (s.topics tp).entries := by
  by_cases htp : tp = topic
  · subst htp
    simp [withdraw]
  · simp [withdraw, htp]

theorem withdraw_dead (hid : s.Issued id) : (s.withdraw id topic).Dead id :=
  ⟨by simp [withdraw_live], hid.2⟩

theorem insertEntry_live (i : SubId) : (s.insertEntry topic).subscriptionTopic i =
    if i = s.nextId then some topic else s.subscriptionTopic i := Function.update_apply ..

theorem insertEntry_entries (tp : Topic) : ((s.insertEntry topic).topics tp).entries =
    if tp = topic then (s.topics tp).entries ++ [s.nextId] else (s.topics tp).entries := by
  by_cases htp : tp = topic
  · subst htp
    simp [insertEntry]
  · simp [insertEntry, htp]

theorem Inv.insertEntry_onTopic (hi : Inv s) : (s.insertEntry topic).OnTopic s.nextId topic := by
  refine ⟨⟨hi.start, Nat.lt_succ_self _⟩, fun tp hlive => ?_⟩
  rw [insertEntry_live, if_pos rfl] at hlive
  exact (Option.some.inj hlive).symm

end

/-! ## What each update of the state does -/

namespace Evolves

variable (h : Evolves t below n r s)
include h

/-- Updates of the tables under `mu` that leave gates, stacks and retirement flags alone. -/
theorem setTables
    (hsame : s'.stack = s.stack ∧ s'.gate = s.gate ∧ s'.retired = s.retired ∧
      s'.deferred = s.deferred ∧ s'.absorbed = s.absorbed) (htab : Tables s')
    (hon : ∀ {id topic}, s.OnTopic id topic → s'.OnTopic id topic)
    (hdead : ∀ {id}, s.Dead id → s'.Dead id)
    (hsts : ∀ id, s'.Issued id →
      (s'.subscriptionTopic id).isSome ∨ s'.retirements id = true ∨ s.Quiet id) :
    Evolves t below n r s' := by
  obtain ⟨hstk, hgate, hret, hdef, habs⟩ := hsame
  have hq : ∀ {id}, s.Quiet id → s'.Quiet id := by
    intro id h
    unfold State.Quiet State.Runs at h ⊢
    rwa [hret, hstk]
  have hs : Stable s s' := ⟨fun h => by rwa [hret], hq, hon, hdead⟩
  refine h.update hs ⟨htab, ?_, ?_, ?_, ?_, ?_⟩ (by rw [hstk]; exact h.keeps)
    (fun u _ => by rw [hstk]) habs
  · rw [hstk, hgate]; exact h.inv.held
  · rw [hstk]; exact h.inv.once
  · exact fun id hiss => (hsts id hiss).imp_right (Or.imp_right hq)
  · intro u
    rw [hstk]
    exact (h.inv.frames u).mono hs
  · rw [hdef, hret]; exact h.inv.owed

theorem setRetired (hdead : s.Dead id) :
    Evolves t below n r (s.setRetired id) := by
  have hr : ∀ {i}, s.retired i = true → (s.setRetired id).retired i = true := by
    intro i hi
    by_cases hid : i = id <;> simp [State.setRetired, hid, hi]
  have hs : Stable s (s.setRetired id) :=
    ⟨hr, fun hq => ⟨hr hq.1, hq.2⟩, fun hon => hon, fun hd => hd⟩
  refine h.update hs { h.inv with
    gone := ?_
    states := fun i hi => (h.inv.states i hi).imp_right (Or.imp_right hs.quiet)
    frames := fun u => (h.inv.frames u).mono hs
    owed := fun u i hi => hr (h.inv.owed u i hi) } h.keeps (fun _ _ => rfl) rfl
  intro i hi
  by_cases hid : i = id
  · subst hid
    exact hdead
  · refine h.inv.gone i ?_
    simpa [State.Withdrawn, State.setRetired, Function.update_of_ne hid] using hi

theorem setDeferred {ids : List SubId}
    (hids : ∀ id ∈ ids, s.retired id = true) : Evolves t below n r (s.setDeferred t ids) := by
  have hs : Stable s (s.setDeferred t ids) := ⟨id, id, id, id⟩
  refine h.update hs { h.inv with frames := fun u => (h.inv.frames u).mono hs, owed := ?_ } h.keeps
    (fun _ _ => rfl) rfl
  intro u i hi
  by_cases hu : u = t
  · subst hu
    exact hids i (by simpa [setDeferred] using hi)
  · exact h.inv.owed u i (by simpa [State.setDeferred, Function.update_of_ne hu] using hi)

/-- A gate nobody holds may change hands. -/
theorem setGate {holder : Option ThreadId} (hfree : ∀ u, ∀ f ∈ s.stack u, f.holds ≠ some id) :
    Evolves t below n r (s.setGate id holder) := by
  have hs : Stable s (s.setGate id holder) := ⟨fun h => h, fun h => h, fun h => h, fun h => h⟩
  refine h.update hs { h.inv with held := ?_, frames := fun u => (h.inv.frames u).mono hs } h.keeps
    (fun _ _ => rfl) rfl
  intro u f hf i hhold
  have hne : i ≠ id := by
    rintro rfl
    exact hfree u f hf hhold
  simpa [State.setGate, Function.update_of_ne hne] using h.inv.held u f hf i hhold

/-- A thread's stack may become `st` if the new frames are in order, hold what they
say they hold, and are inside no callback that was already retired. -/
theorem setStack (hb : below <:+ st) (hok : StackOk s st)
    (hheld : ∀ f ∈ st, ∀ id, f.holds = some id → s.gate id = some t)
    (honce : (st.filterMap Frame.holds).Nodup)
    (hruns : ∀ f ∈ st, ∀ id, f.runs = some id → f ∈ s.stack t ∨ s.retired id = false) :
    Evolves t below n r (s.setStack t st) := by
  have hq : ∀ {id}, s.Quiet id → (s.setStack t st).Quiet id := by
    rintro id ⟨hr, hnot⟩
    refine ⟨hr, ?_⟩
    rintro ⟨u, f, hf, hfr⟩
    by_cases hu : u = t
    · subst hu
      rcases hruns f (by simpa using hf) id hfr with hold | hnew
      · exact hnot ⟨u, f, hold, hfr⟩
      · simp [hr] at hnew
    · exact hnot ⟨u, f, by rwa [setStack_other hu] at hf, hfr⟩
  have hs : Stable s (s.setStack t st) := ⟨id, hq, id, id⟩
  refine h.update hs { h.inv with
    held := ?_
    once := ?_
    states := fun id hiss => (h.inv.states id hiss).imp_right (Or.imp_right hq)
    frames := ?_ } (by simpa using hb) (fun _ => setStack_other) rfl
  · intro u f hf id hhold
    by_cases hu : u = t
    · subst hu
      exact hheld f (by simpa using hf) id hhold
    · exact h.inv.held u f (by rwa [setStack_other hu] at hf) id hhold
  · intro u
    by_cases hu : u = t
    · subst hu
      simpa using honce
    · rw [setStack_other hu]
      exact h.inv.once u
  · intro u
    by_cases hu : u = t
    · subst hu
      simpa using hok.mono hs
    · rw [setStack_other hu]
      exact (h.inv.frames u).mono hs

/-- Frames return to what is below them. -/
theorem pop : Evolves t below n r (s.setStack t below) :=
  have hb := h.keeps
  h.setStack suffix_rfl ((h.inv.frames t).suffix hb) (fun f hf => h.inv.held t f (hb.subset hf))
    ((h.inv.once t).sublist (hb.sublist.filterMap _)) (fun _ hf _ _ => .inl (hb.subset hf))

/-- A frame that holds no gate may be put on what is below. -/
theorem push (hf : f.holds = none) (hok : FrameOk s below f) :
    Evolves t below n r (s.setStack t (f :: below)) := by
  have hb := h.keeps
  refine h.setStack (suffix_cons f below) ⟨hok, (h.inv.frames t).suffix hb⟩ ?_ ?_ ?_
  · intro g hg id hhold
    rcases mem_cons.mp hg with rfl | hg
    · rw [hf] at hhold; cases hhold
    · exact h.inv.held t g (hb.subset hg) id hhold
  · rw [filterMap_cons_none hf]
    exact (h.inv.once t).sublist (hb.sublist.filterMap _)
  · intro g hg id hruns
    rcases mem_cons.mp hg with rfl | hg
    · exact absurd hruns (Frame.runs_of_holds_none hf)
    · exact .inl (hb.subset hg)

theorem release (hq : s.Quiet id) :
    Evolves t below n r (s.release id) := by
  have hother : ∀ i, i ≠ id → (s.release id).retirements i = s.retirements i :=
    fun i hid => Function.update_of_ne hid _ _
  refine h.setTables ⟨rfl, rfl, rfl, rfl, rfl⟩ { h.inv.toTables with gone := ?_ } (fun h => h)
    (fun h => h) ?_
  · intro i hi
    by_cases hid : i = id
    · subst hid
      exact h.inv.gone i (.inl hq.1)
    · unfold State.Withdrawn at hi
      rw [hother i hid] at hi
      exact h.inv.gone i hi
  · intro i hiss
    by_cases hid : i = id
    · subst hid
      exact .inr (.inr hq)
    · rw [hother i hid]
      exact h.inv.states i hiss

/-! ## What each step does -/

/-- A drain's step, and what the call that made it may rely on afterwards. A drain
that reports itself done without a deferral is quiet, except for a duplicate
cancel made inside a delivery. -/
theorem drainStep {owns : Bool} {pc : DrainPc} {res : DrainResult}
    (hpc : DrainOk s id pc) (hd : drainStep s t below id owns pc = some (s', res)) :
    Evolves t below n r s' ∧
      match res with
      | .more pc => DrainOk s' id pc
      | .done true => insideDeliveryOn .subscriber below = true
      | .done false =>
        s'.Quiet id ∨ (owns = false ∧ insideDeliveryOn .subscriber below = true) := by
  cases pc with
  | retire =>
    cases hd
    exact ⟨h.setRetired hpc, setRetired_retired⟩
  | ask =>
    simp only [PubSub.drainStep] at hd
    split at hd
    · next hin =>
      cases owns with
      | true =>
        cases hd
        refine ⟨h.setDeferred ?_, hin⟩
        intro i hmem
        rcases mem_append.mp hmem with hold | hnew
        · exact h.inv.owed t i hold
        · obtain rfl := mem_singleton.mp hnew
          exact hpc
      | false =>
        cases hd
        exact ⟨h, .inr ⟨rfl, hin⟩⟩
    · cases hd
      exact ⟨h, hpc⟩
  | barrier =>
    simp only [PubSub.drainStep] at hd
    split at hd
    · next hg =>
      cases hd
      exact ⟨h, .inl (h.inv.quiet_of_free hpc hg)⟩
    · cases hd

theorem endScope : Evolves t below n r (s.endScope t below) := by
  unfold State.endScope
  split
  · -- the outermost frame ends: everything owed becomes due
    have hsweep : FrameOk s below (.sweep (s.deferred t) false) :=
      ⟨fun id hid => h.inv.owed t id hid, by simp⟩
    exact (h.push rfl hsweep).setDeferred (by simp)
  · exact h.pop

theorem advanceSweep {due : List SubId} {drained : Bool}
    (hok : FrameOk s below (.sweep due drained))
    (ha : advanceSweep s t below due drained = some s') : Evolves t below n r s' := by
  obtain ⟨hret, hqui⟩ := hok
  cases due with
  | nil =>
    cases ha
    exact h.pop
  | cons id due =>
    cases drained with
    | false =>
      simp only [PubSub.advanceSweep] at ha
      split at ha
      · next hfree =>
        cases ha
        refine h.push rfl ⟨hret, fun _ i hhead => ?_⟩
        obtain rfl : id = i := by simpa using hhead
        exact h.inv.quiet_of_free (hret id mem_cons_self) hfree
      · cases ha
    | true =>
      cases ha
      refine (h.release (hqui rfl id (by simp))).push rfl ⟨fun i hmem => ?_, by simp⟩
      exact hret i (mem_cons_of_mem _ hmem)

/-- A fan-out gives the gate it holds back. -/
theorem unlock {sample : Sample}
    {rest : List SubId} (hst : s.stack t = f :: below) (hf : f.holds = some id) :
    Evolves t below n r
      ((s.setGate id none).setStack t (.fanout sample rest .between :: below)) := by
  -- the two updates commute; the frame must go before the gate does
  refine (h.push (f := .fanout sample rest .between) rfl trivial).setGate ?_
  intro u g hg hhold
  by_cases hu : u = t
  · subst hu
    rw [setStack_stack] at hg
    rcases mem_cons.mp hg with rfl | hg
    · cases hhold
    · have honce := h.inv.once u
      rw [hst, filterMap_cons_some hf, nodup_cons] at honce
      exact honce.1 (mem_filterMap.mpr ⟨g, hg, hhold⟩)
  · rw [setStack_other hu] at hg
    have h1 := h.inv.held u g hg id hhold
    have h2 := h.inv.held t f (by simp [hst]) id hf
    exact hu (Option.some.inj (h1.symm.trans h2))

theorem advanceFanout {sample : Sample} {rest : List SubId}
    {phase : FanoutPhase} (hst : s.stack t = .fanout sample rest phase :: below)
    (ha : advanceFanout s t sample rest below phase = some s') : Evolves t below n r s' := by
  have hb := h.keeps
  cases phase with
  | between =>
    cases rest with
    | nil =>
      cases ha
      exact h.endScope
    | cons id rest =>
      simp only [PubSub.advanceFanout] at ha
      split at ha
      · next hfree =>
        cases ha
        -- a free gate is held by no frame, on this thread or another
        have hnone : ∀ u, ∀ f ∈ s.stack u, f.holds ≠ some id := by
          intro u f hf hhold
          have := h.inv.held u f hf id hhold
          rw [hfree] at this
          cases this
        have hg : Evolves t below n r (s.setGate id (some t)) := h.setGate hnone
        refine hg.setStack (suffix_cons _ _) ⟨trivial, (hg.inv.frames t).suffix hb⟩ ?_ ?_ ?_
        · intro f hf i hhold
          rcases mem_cons.mp hf with rfl | hf
          · obtain rfl : id = i := by simpa [Frame.holds] using hhold
            simp [State.setGate]
          · exact hg.inv.held t f (hb.subset hf) i hhold
        · have hloc : (Frame.fanout sample rest (.locked id) : Frame Topic Sample).holds =
              some id := rfl
          rw [filterMap_cons_some hloc, nodup_cons]
          refine ⟨fun hmem => ?_, (h.inv.once t).sublist (hb.sublist.filterMap _)⟩
          obtain ⟨f, hf, hhold⟩ := mem_filterMap.mp hmem
          exact hnone t f (hb.subset hf) hhold
        · intro f hf i hruns
          rcases mem_cons.mp hf with rfl | hf
          · cases hruns
          · exact .inl (hb.subset hf)
      · cases ha
  | locked id =>
    simp only [PubSub.advanceFanout] at ha
    split at ha
    · cases ha
      exact h.unlock hst rfl
    · next hret =>
      cases ha
      -- the one step into a callback: `retired` was read false under the gate
      refine h.setStack (suffix_cons _ _) ⟨trivial, (h.inv.frames t).suffix hb⟩ ?_ ?_ ?_
      · intro f hf i hhold
        rcases mem_cons.mp hf with rfl | hf
        · obtain rfl : id = i := by simpa [Frame.holds] using hhold
          exact h.inv.held t _ (by rw [hst]; exact mem_cons_self) id rfl
        · exact h.inv.held t f (hb.subset hf) i hhold
      · have honce := h.inv.once t
        rw [hst] at honce
        exact honce
      · intro f hf i hruns
        rcases mem_cons.mp hf with rfl | hf
        · obtain rfl : id = i := by simpa [Frame.runs] using hruns
          exact .inr (by simpa using hret)
        · exact .inl (hb.subset hf)
  | running id => cases ha

theorem absorb :
    Evolves t below (n + 1) r { s with absorbed := s.absorbed + 1 } :=
  have hs : Stable s { s with absorbed := s.absorbed + 1 } :=
    ⟨fun h => h, fun h => h, fun h => h, fun h => h⟩
  { h with
    inv := { h.inv with frames := fun u => (h.inv.frames u).mono hs }
    absorbed := congrArg (· + 1) h.absorbed }

variable [DecidableEq Topic] {topic : Topic} {options : TopicOptions}

theorem setTopic {ts : TopicState}
    (hts : ts.entries = (s.topics topic).entries) : Evolves t below n r (s.setTopic topic ts) := by
  have hents : ∀ tp, ((s.setTopic topic ts).topics tp).entries = (s.topics tp).entries := by
    intro tp
    by_cases htp : tp = topic
    · subst htp
      simpa [setTopic] using hts
    · simp [State.setTopic, Function.update_of_ne htp]
  refine h.setTables ⟨rfl, rfl, rfl, rfl, rfl⟩
    { h.inv.toTables with live := fun i tp => ?_, ordered := fun tp => ?_ }
      (fun h => h) (fun h => h)
    h.inv.states
  · rw [hents]
    exact h.inv.live i tp
  · rw [hents]
    exact h.inv.ordered tp

/-- Withdrawing an id takes it out of both tables, and moves it from live to retiring with no
window between, whether or not it was still live. -/
theorem withdraw (hid : s.OnTopic id topic) :
    Evolves t below n r (s.withdraw id topic) := by
  have hrtg : ∀ i, i ≠ id → (s.withdraw id topic).retirements i = s.retirements i := by
    intro i hne
    simp only [State.withdraw, State.publish]
    split
    · exact Function.update_of_ne hne _ _
    · rfl
  have hdead : ∀ {i}, s.Dead i → (s.withdraw id topic).Dead i := by
    intro i hi
    refine ⟨?_, hi.2⟩
    rw [withdraw_live, hi.1, ite_self]
  have hlive : ∀ {i tp}, (s.withdraw id topic).subscriptionTopic i = some tp →
      i ≠ id ∧ s.subscriptionTopic i = some tp := by
    intro i tp hi
    rw [withdraw_live] at hi
    split at hi
    · cases hi
    · next hne => exact ⟨hne, hi⟩
  refine h.setTables ⟨rfl, rfl, rfl, rfl, rfl⟩ ⟨?_, ?_, h.inv.start, ?_, ?_⟩ ?_ hdead ?_
  · intro i tp
    have hiff := h.inv.live i tp
    rw [withdraw_live, withdraw_entries]
    -- an entry of another topic would be live there
    have hon := hid.2 tp
    by_cases htp : tp = topic
    · subst htp
      by_cases hne : i = id <;> simp [hne, hiff]
    · by_cases hne : i = id <;> simp_all
  · intro tp
    rw [withdraw_entries]
    split
    · exact (h.inv.ordered tp).filter (· != id)
    · exact h.inv.ordered tp
  · exact fun i tp hi => h.inv.issued i tp (hlive hi).2
  · intro i hi
    by_cases hne : i = id
    · subst hne
      exact withdraw_dead hid.1
    · refine hdead (h.inv.gone i (hi.imp_right fun hi => ?_))
      rwa [hrtg i hne] at hi
  · exact fun hon => ⟨hon.1, fun tp htp => hon.2 tp (hlive htp).2⟩
  · intro i hiss
    have hsts := h.inv.states i hiss
    by_cases hne : i = id
    · subst hne
      by_cases hent : i ∈ (s.topics topic).entries
      · exact .inr (.inl (by simp [withdraw, publish, hent]))
      · rcases hsts with hlive | hrtg | hqui
        · -- live without an entry: excluded by the invariant
          obtain ⟨tp, htp⟩ := Option.isSome_iff_exists.mp hlive
          obtain rfl := hid.2 tp htp
          exact absurd ((h.inv.live i tp).mp htp) hent
        · exact .inr (.inl (by simpa [withdraw, hent] using hrtg))
        · exact .inr (.inr hqui)
    · rw [withdraw_live, if_neg hne, hrtg i hne]
      exact hsts

theorem rollback (hid : s.OnTopic id topic) :
    Evolves t below n r (s.rollback t topic options id below) := by
  unfold State.rollback
  split
  · exact (h.withdraw hid).push rfl (withdraw_dead hid.1)
  · exact (h.withdraw hid).pop

theorem applyEnsure (hid : s.OnTopic id topic) (e : Ensure) :
    Evolves t below n r (s.applyEnsure t topic options id below e) := by
  cases e with
  | joined => exact h.pop
  | refused => exact h.rollback hid
  | wait => exact h.push rfl hid
  | enter => exact Evolves.push (h.setTopic rfl) rfl hid

/-- A fresh id goes into the live map and to the end of its topic's fan-out together. -/
theorem insertEntry : Evolves t below n r (s.insertEntry topic) := by
  have hfresh : ∀ {i}, i < s.nextId →
      (s.insertEntry topic).subscriptionTopic i = s.subscriptionTopic i := by
    intro i hi
    rw [insertEntry_live, if_neg (Nat.ne_of_lt hi)]
  have hdead : ∀ {i}, s.Dead i → (s.insertEntry topic).Dead i :=
    fun hi => ⟨(hfresh hi.2).trans hi.1, Nat.lt_succ_of_lt hi.2⟩
  have hent : ∀ {i tp}, i ∈ (s.topics tp).entries → i < s.nextId :=
    fun hi => (h.inv.issued _ _ ((h.inv.live _ _).mpr hi)).2
  refine h.setTables ⟨rfl, rfl, rfl, rfl, rfl⟩ ⟨?_, ?_, Nat.succ_pos _, ?_, ?_⟩ ?_ hdead ?_
  · intro i tp
    have hiff := h.inv.live i tp
    rw [insertEntry_live, insertEntry_entries]
    have hnew : i ∈ (s.topics tp).entries → i ≠ s.nextId := fun hi => Nat.ne_of_lt (hent hi)
    by_cases htp : tp = topic
    · by_cases hne : i = s.nextId <;> simp_all
    · by_cases hne : i = s.nextId <;> simp_all [Ne.symm htp]
  · intro tp
    rw [insertEntry_entries]
    split
    · refine pairwise_append.mpr ⟨h.inv.ordered tp, pairwise_singleton _ _, ?_⟩
      intro i hi j hj
      rw [mem_singleton.mp hj]
      exact hent hi
    · exact h.inv.ordered tp
  · intro i tp hi
    rw [insertEntry_live] at hi
    split at hi
    · next hnew => exact hnew ▸ ⟨h.inv.start, Nat.lt_succ_self _⟩
    · exact ⟨(h.inv.issued i tp hi).1, Nat.lt_succ_of_lt (h.inv.issued i tp hi).2⟩
  · exact fun i hi => hdead (h.inv.gone i hi)
  · rintro i tp ⟨⟨hpos, hlt⟩, hon⟩
    refine ⟨⟨hpos, Nat.lt_succ_of_lt hlt⟩, fun tp' hlive => hon tp' ?_⟩
    rwa [hfresh hlt] at hlive
  · rintro i ⟨hpos, hlt⟩
    rw [insertEntry_live]
    split
    · exact .inl rfl
    · next hne => exact h.inv.states i ⟨hpos, Nat.lt_of_le_of_ne (Nat.le_of_lt_succ hlt) hne⟩

theorem providerSubscribed (hid : s.OnTopic id topic) (ok : Bool) :
    Evolves t below n r (s.providerSubscribed t topic options id below ok) := by
  cases ok with
  | true => exact Evolves.pop (h.setTopic rfl)
  | false =>
    refine Evolves.rollback ?_ hid
    exact h.setTopic rfl

theorem cancelLookup :
    Evolves t below n r (s.cancelLookup t id below) := by
  unfold State.cancelLookup
  split
  · next topic hlive =>
    have hid : s.OnTopic id topic :=
      ⟨h.inv.issued id topic hlive, fun tp htp => Option.some.inj (htp.symm.trans hlive)⟩
    -- a live subscription has its entry, so the call always finds the gate
    rw [if_pos ((h.inv.live id topic).mp hlive)]
    exact (h.withdraw hid).push rfl (withdraw_dead hid.1)
  · split
    · next hrtg => exact h.push rfl (h.inv.gone id (.inr hrtg))
    · exact h.pop

theorem cancelFinish {isDeferred : Bool}
    (hok : FrameOk s below (.unsubscribe id (.finish topic isDeferred))) :
    Evolves t below n r (s.cancelFinish t id topic isDeferred below) := by
  have hrel : Evolves t below n r (if isDeferred then s else s.release id) := by
    cases isDeferred with
    | false => exact h.release hok
    | true => exact h
  have hprov : FrameOk (if isDeferred then s else s.release id) below
      (.unsubscribe id .inProvider) := by
    cases isDeferred with
    | false => exact .inr hok
    | true => exact .inl hok
  unfold State.cancelFinish
  generalize (if isDeferred then s else s.release id) = r' at hrel hprov
  dsimp only
  split
  · exact Evolves.push (hrel.setTopic rfl) rfl hprov
  · exact hrel.pop

theorem advanceCancel {pc : CancelPc Topic}
    (hok : FrameOk s below (.unsubscribe id pc)) (ha : advanceCancel s t id below pc = some s') :
    Evolves t below n r s' := by
  cases pc with
  | lookup =>
    cases ha
    exact h.cancelLookup
  | drain ours pc =>
    obtain ⟨⟨_, res⟩, hdrain, rfl⟩ := Option.map_eq_some_iff.mp ha
    obtain ⟨hev, hres⟩ := h.drainStep hok hdrain
    cases res with
    | more pc => exact hev.push rfl hres
    | done isDeferred =>
      cases ours with
      | none => exact hev.pop
      | some key =>
        -- the owner is either quiet or has deferred
        cases isDeferred with
        | true => exact hev.push rfl hres
        | false => exact hev.push rfl (hres.resolve_right (by simp))
  | finish key isDeferred =>
    cases ha
    exact h.cancelFinish hok
  | inProvider => cases ha

theorem advanceSubscribe {pc : SubscribePc} (hok : FrameOk s below (.subscribe topic options id pc))
    (ha : advanceSubscribe s t topic options id below pc = some s') : Evolves t below n r s' := by
  cases pc with
  | waiting =>
    simp only [PubSub.advanceSubscribe] at ha
    split at ha
    · cases ha
    · cases ha
      exact h.applyEnsure hok _
  | inProvider => cases ha
  | drain pc =>
    obtain ⟨⟨_, res⟩, hdrain, rfl⟩ := Option.map_eq_some_iff.mp ha
    obtain ⟨hev, hres⟩ := h.drainStep hok hdrain
    cases res with
    | more pc => exact hev.push rfl hres
    | done isDeferred =>
      cases isDeferred with
      | true => exact hev.pop
      | false => exact hev.push rfl (hres.resolve_right (by simp))
  | release =>
    cases ha
    exact (h.release hok).pop

end Evolves

section

variable [DecidableEq Topic]

/-- **A step** is one of its thread, and touches only the frame on top of that thread's stack. -/
theorem evolves_step (hi : Inv s) {a : Action Topic Sample} (ha : step s t a = some s') :
    Evolves t (a.keeps (s.stack t)) (if a.throws then 1 else 0) s s' := by
  have hcall := hi.evolves (t := t) suffix_rfl
  have htop : ∀ {f below}, s.stack t = f :: below →
      Evolves t below 0 s s ∧ (s.stack t).tail = below := by
    intro f below hst
    exact ⟨hi.evolves (hst ▸ suffix_cons f below), by rw [hst]; rfl⟩
  cases a with
  | deliver _ _ | enterScope _ | unsubscribe _ =>
    simp only [step] at ha
    split at ha
    · cases ha
      exact hcall.push rfl trivial
    · cases ha
  | subscribe _ _ =>
    simp only [step] at ha
    split at ha
    · cases ha
      exact hcall.insertEntry.applyEnsure hi.insertEntry_onTopic _
    · cases ha
  | exitScope =>
    simp only [step] at ha
    split at ha
    · next hst =>
      cases ha
      obtain ⟨h, rfl⟩ := htop hst
      exact h.endScope
    · cases ha
  | handlerReturns threw =>
    simp only [step] at ha
    split at ha
    · next hst =>
      cases ha
      obtain ⟨h, rfl⟩ := htop hst
      cases threw with
      | false => exact h.unlock hst rfl
      | true => exact (h.unlock hst rfl).absorb
    · cases ha
  | providerReturns ok =>
    simp only [step] at ha
    split at ha
    · next hst =>
      cases ha
      obtain ⟨h, rfl⟩ := htop hst
      exact h.providerSubscribed (hi.top hst) ok
    · next hst =>
      cases ha
      obtain ⟨h, rfl⟩ := htop hst
      exact h.pop
    · cases ha
  | advance =>
    simp only [step, advance] at ha
    split at ha
    · next hst =>
      obtain ⟨h, rfl⟩ := htop hst
      exact h.advanceFanout hst ha
    · next hst =>
      obtain ⟨h, rfl⟩ := htop hst
      exact h.advanceCancel (hi.top hst) ha
    · next hst =>
      obtain ⟨h, rfl⟩ := htop hst
      exact h.advanceSubscribe (hi.top hst) ha
    · next hst =>
      obtain ⟨h, rfl⟩ := htop hst
      exact h.advanceSweep (hi.top hst) ha
    · cases ha

omit [DecidableEq Topic] in
theorem inv_init : Inv (init : State Topic Sample) where
  live id topic := ⟨nofun, nofun⟩
  ordered topic := List.Pairwise.nil
  start := Nat.one_pos
  issued id topic h := by cases h
  gone id h := by
    rcases h with h | h
    · cases h
    · cases h
  held u f hf := by cases hf
  once u := nodup_nil
  -- no id is both positive and below the first one
  states id h := absurd h.2 (Nat.not_lt.mpr h.1)
  frames u := trivial
  owed u id h := by cases h

theorem inv_reachable (h : Lib.Reaches machine init s) : Inv s :=
  h.preserves (fun hi hstep => (evolves_step hi hstep).inv) inv_init

/-- Quiet is for good. -/
theorem quiet_forever (hi : Inv s) (hq : s.Quiet id) (h : Lib.Reaches machine s s') : s'.Quiet id :=
  (h.preserves (P := fun s => Inv s ∧ s.Quiet id)
    (fun ⟨hi, hq⟩ hstep => ⟨(evolves_step hi hstep).inv, (evolves_step hi hstep).quiet hq⟩)
    ⟨hi, hq⟩).2

/-! ## One callback at a time -/

/-- **Callbacks are serialised and ids are used once.** In every state that any interleaving
reaches, no two invocations of one callback are in progress, on two threads or on one; the id
table lists exactly what the fan-outs hold, each of them in subscription order; and an id that
is not live any more is never live again. -/
theorem callbacks_serialised (h : Lib.Reaches machine init s) :
    (∀ t u f g id, f ∈ s.stack t → g ∈ s.stack u → f.runs = some id → g.runs = some id → t = u) ∧
    (∀ t, ((s.stack t).filterMap Frame.runs).Nodup) ∧
    (∀ id topic, s.subscriptionTopic id = some topic ↔ id ∈ (s.topics topic).entries) ∧
    (∀ topic, (s.topics topic).entries.Pairwise (· < ·)) ∧
    ∀ id s', s.Dead id → Lib.Reaches machine s s' → s'.Dead id := by
  have hi := inv_reachable h
  refine ⟨?_, ?_, hi.live, hi.ordered, ?_⟩
  · -- both are holders of the one gate
    intro t u f g id hf hg hrf hrg
    have ht := hi.held t f hf id (Frame.holds_of_runs hrf)
    have hu := hi.held u g hg id (Frame.holds_of_runs hrg)
    rw [ht] at hu
    exact Option.some.inj hu
  · intro t
    have honce := pairwise_filterMap.mp (hi.once t)
    refine pairwise_filterMap.mpr (honce.imp ?_)
    intro f g hne id hf id' hg
    exact hne id (Frame.holds_of_runs hf) id' (Frame.holds_of_runs hg)
  · intro id s' hd hlater
    exact (hlater.preserves (P := fun s => Inv s ∧ s.Dead id)
      (fun hs hstep => ⟨(evolves_step hs.1 hstep).inv, (evolves_step hs.1 hstep).dead hs.2⟩)
      ⟨hi, hd⟩).2

/-- A delivery is inside the callback of the one subscription there is. -/
theorem callbacks_serialised_one : ∃ s : State Nat Nat, s.Runs 1 ∧
    ((s.stack 0).filterMap Frame.runs).Nodup := by
  have hrun : Lib.Reaches machine (init : State Nat Nat) _ := ⟨[(0, .subscribe 7 ⟨"", 0⟩),
    (0, .providerReturns true), (0, .deliver 7 42), (0, .advance), (0, .advance)], rfl⟩
  exact ⟨_, ⟨0, _, mem_cons_self, rfl⟩, (callbacks_serialised hrun).2.1 0⟩

/-! ## The promise -/

/-- A cancel that has looked its id up returns at once only when there is nothing to
wait for. -/
theorem quiet_of_cancelLookup (hi : Inv s) (hid : s.Issued id)
    (hret : (s.cancelLookup t id below).stack t = below) : s.Quiet id := by
  unfold cancelLookup at hret
  split at hret
  · split at hret <;> exact absurd hret (by simp)
  · next hdead =>
    split at hret
    · exact absurd hret (by simp)
    · next hgone =>
      rcases hi.states id hid with hlive | hrtg | hqui
      · simp [hdead] at hlive
      · exact absurd hrtg hgone
      · exact hqui

/-- The step with which a cancel outside every delivery returns leaves its id quiet. -/
theorem quiet_of_advanceCancel (hi : Inv s) {pc : CancelPc Topic}
    (hst : s.stack t = .unsubscribe id pc :: below)
    (hout : insideDeliveryOn .subscriber below = false) (hid : s.Issued id)
    (ha : advanceCancel s t id below pc = some s') (hret : s'.stack t = below) :
    s'.Quiet id := by
  have hok := hi.top hst
  have h : Evolves t below 0 s s := hi.evolves (hst ▸ suffix_cons _ below)
  have hev := h.advanceCancel hok ha
  cases pc with
  | lookup =>
    cases ha
    exact hev.quiet (quiet_of_cancelLookup hi hid hret)
  | drain ours pc =>
    obtain ⟨⟨s₁, res⟩, hdrain, rfl⟩ := Option.map_eq_some_iff.mp ha
    obtain ⟨h₁, hres⟩ := h.drainStep hok hdrain
    cases res with
    | more pc => exact absurd hret (by simp)
    | done isDeferred =>
      cases ours with
      | some key => exact absurd hret (by simp)
      | none =>
        -- a duplicate has waited out the barrier: the only other way is inside a delivery
        have hq : s₁.Quiet id := by
          cases isDeferred with
          | true => simp [hout] at hres
          | false => simpa [hout] using hres
        exact ((h₁.inv.evolves h₁.keeps).pop).quiet hq
  | finish key isDeferred =>
    cases isDeferred with
    | true => simp [FrameOk, hout] at hok
    | false => exact hev.quiet hok
  | inProvider => cases ha

theorem quiet_of_return (hi : Inv s) {pc : CancelPc Topic} {a : Action Topic Sample}
    (hst : s.stack t = .unsubscribe id pc :: below)
    (hout : insideDeliveryOn .subscriber below = false) (hid : s.Issued id)
    (ha : step s t a = some s') (hret : s'.stack t = below) : s'.Quiet id := by
  have hev := evolves_step hi ha
  cases a with
  | deliver _ _ | enterScope _ | subscribe _ _ | unsubscribe _ =>
    exact absurd hev.keeps (not_keeps hst hret)
  | exitScope => simp [step, hst] at ha
  | handlerReturns _ => simp [step, hst] at ha
  | providerReturns _ =>
    cases pc with
    | inProvider =>
      rcases hi.top hst with hin | hq
      · simp [hout] at hin
      · exact hev.quiet hq
    | lookup => simp [step, hst] at ha
    | drain _ pc => simp [step, hst] at ha
    | finish _ _ => simp [step, hst] at ha
  | advance =>
    have hadv : advanceCancel s t id below pc = some s' := by simpa [step, advance, hst] using ha
    exact quiet_of_advanceCancel hi hst hout hid hadv hret

/--
**The cancel promise.**

Take any interleaving of deliveries, Subscribes and cancels, and in it the step
with which an `Unsubscribe(id)` returns to a caller that is not inside a delivery
on this Subscriber. Then no thread is inside the callback of `id`, in that state
or in any later one.
-/
theorem unsubscribe_returns_quiet {pc : CancelPc Topic} {a : Action Topic Sample}
    (hreach : Lib.Reaches machine init s) (hcall : s.stack t = .unsubscribe id pc :: below)
    (hstep : step s t a = some s') (hreturn : s'.stack t = below)
    (houtside : insideDeliveryOn .subscriber below = false) (hissued : s.Issued id)
    (hlater : Lib.Reaches machine s' s'') : ¬ s''.Runs id := by
  have hi := inv_reachable hreach
  have hq := quiet_of_return hi hcall houtside hissued hstep hreturn
  exact (quiet_forever (evolves_step hi hstep).inv hq hlater).2

end

/-- Thread 0 subscribes; thread 1 is inside the callback when threads 2 and 3 both
cancel. Thread 3, the duplicate, is held at the barrier until the handler returns. -/
def duplicateCancel : List (ThreadId × Action Nat Nat) :=
  [(0, .subscribe 7 ⟨"", 0⟩), (0, .providerReturns true),
    (1, .enterScope .provider), (1, .deliver 7 42), (1, .advance), (1, .advance),
    (2, .unsubscribe 1), (2, .advance), (2, .advance), (2, .advance),
    (3, .unsubscribe 1), (3, .advance), (3, .advance), (3, .advance),
    (1, .handlerReturns false)]

theorem unsubscribe_returns_quiet_duplicate :
    ∃ s s' : State Nat Nat, Lib.run machine init duplicateCancel = some s ∧
      s.stack 3 = [.unsubscribe 1 (.drain none .barrier)] ∧ step s 3 .advance = some s' ∧
      s'.stack 3 = [] ∧ ¬ s'.Runs 1 := by
  have hrun : (Lib.run machine init duplicateCancel).isSome := rfl
  obtain ⟨s, hs⟩ := Option.isSome_iff_exists.mp hrun
  have hstack : s.stack 3 = [.unsubscribe 1 (.drain none .barrier)] := by
    cases hs
    rfl
  have hnext : (step s 3 .advance).isSome := by
    cases hs
    rfl
  obtain ⟨s', hs'⟩ := Option.isSome_iff_exists.mp hnext
  have hreturn : s'.stack 3 = [] := by
    cases hs
    cases hs'
    rfl
  have hissued : s.Issued 1 := by
    cases hs
    exact ⟨Nat.zero_lt_one, Nat.one_lt_two⟩
  exact ⟨s, s', hs, hstack, hs', hreturn,
    unsubscribe_returns_quiet ⟨duplicateCancel, hs⟩ hstack hs' hreturn rfl hissued
      (Lib.Reaches.refl machine s')⟩

end Fletcher.PubSub
