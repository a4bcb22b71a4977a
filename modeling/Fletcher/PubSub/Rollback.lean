import Fletcher.PubSub.SubscriberProof

/-!
# A Subscribe that fails

`Subscribe` puts its entry into the fan-out before it asks the provider, so the provider may
deliver to the callback before it refuses. The failed call takes its entry out again, and
drains it as a cancel would. But the callback has its id by then and may have handed it on:
when a cancel of the id got there first, the entry is gone, the failed call has no gate to
wait for, and it throws while the callback runs (`subscribe_throws_running`).

What holds is that the call throws into a quiet state unless such a cancel is still under way.
The id is in neither table in any case.
-/

namespace Fletcher.PubSub

open List

variable {Topic Sample : Type} {s s' s'' : State Topic Sample} {t : ThreadId}
  {id : SubId} {below : List (Frame Topic Sample)}

section

variable [DecidableEq Topic] {topic : Topic} {options : TopicOptions}

/-- The step is one with which a Subscribe in this place gives up: the provider refuses it, the
options it waited for do not agree with its own, or it is on its way out already. -/
def Fails (s : State Topic Sample) (topic : Topic) (options : TopicOptions)
    (a : Action Topic Sample) : SubscribePc → Prop
  | .waiting => a = .advance ∧ ensureWoken (s.topics topic) options = .refused
  | .inProvider => a = .providerReturns false
  | .drain _ | .release => True

/-- A rollback that returns at once found no entry: somebody else had withdrawn it. -/
theorem quiet_of_rollback (hi : Inv s) (hid : s.OnTopic id topic) (hcan : s.retirements id = false)
    (hret : (s.rollback t topic options id below).stack t = below) : s.Quiet id := by
  unfold State.rollback at hret
  split at hret
  · exact absurd hret (by simp)
  · next hent =>
    rcases hi.states id hid.1 with hlive | hrtg | hqui
    · obtain ⟨tp, htp⟩ := Option.isSome_iff_exists.mp hlive
      obtain rfl := hid.2 tp htp
      exact absurd ((hi.live id tp).mp htp) hent
    · rw [hcan] at hrtg
      cases hrtg
    · exact hqui

/-- The step with which a failed Subscribe outside every delivery throws leaves its id quiet,
unless a cancel of the id is under way. -/
theorem quiet_of_throw (hi : Inv s) {pc : SubscribePc} {a : Action Topic Sample}
    (hst : s.stack t = .subscribe topic options id pc :: below) (ha : step s t a = some s')
    (hret : s'.stack t = below) (hfails : Fails s topic options a pc)
    (hout : insideDeliveryOn .subscriber below = false)
    (hcan : pc = .inProvider ∨ pc = .waiting → s.retirements id = false) : s'.Quiet id := by
  have hok := hi.top hst
  have h : Evolves t below 0 s s := hi.evolves (hst ▸ suffix_cons _ below)
  have hev := evolves_step hi ha
  cases pc with
  | inProvider =>
    obtain rfl : a = .providerReturns false := hfails
    obtain rfl : s.providerSubscribed t topic options id below false = s' := by
      simpa [step, hst] using ha
    have hs₀ : Evolves t below 0 s (s.setTopic topic
        { s.topics topic with providerSubscribeInProgress := false }) := h.setTopic rfl
    have hq := quiet_of_rollback hs₀.inv hok (hcan (.inl rfl)) hret
    exact hev.quiet hq
  | waiting =>
    obtain ⟨rfl, href⟩ := hfails
    have hadv : advanceSubscribe s t topic options id below .waiting = some s' := by
      simpa [step, advance, hst] using ha
    simp only [advanceSubscribe, href] at hadv
    split at hadv
    · cases hadv
    · cases hadv
      exact hev.quiet (quiet_of_rollback hi hok (hcan (.inr rfl)) hret)
  | release => exact hev.quiet hok
  | drain pc =>
    cases a with
    | advance =>
      have hadv : advanceSubscribe s t topic options id below (.drain pc) = some s' := by
        simpa [step, advance, hst] using ha
      obtain ⟨⟨_, res⟩, hdrain, rfl⟩ := Option.map_eq_some_iff.mp hadv
      obtain ⟨-, hres⟩ := h.drainStep hok hdrain
      cases res with
      | more pc => exact absurd hret (by simp)
      | done isDeferred =>
        cases isDeferred with
        | true => simp [hout] at hres
        | false => exact absurd hret (by simp)
    | deliver _ _ | enterScope _ | subscribe _ _ | unsubscribe _ =>
      exact absurd hev.keeps (not_keeps hst hret)
    | exitScope | handlerReturns _ | providerReturns _ => simp [step, hst] at ha

/-- **A Subscribe that fails.** Take any interleaving, and in it the step with which a
`Subscribe` throws to a caller that is not inside a delivery on this Subscriber. If no cancel
of its id is under way when it takes its entry back, then no thread is inside the callback, in
that state or in any later one, and the id is in neither table. -/
theorem failed_subscribe_quiet {pc : SubscribePc} {a : Action Topic Sample}
    (hreach : Lib.Reaches machine State.init s)
    (hcall : s.stack t = .subscribe topic options id pc :: below)
    (hstep : step s t a = some s') (hthrows : s'.stack t = below ∧ Fails s topic options a pc)
    (houtside : insideDeliveryOn .subscriber below = false)
    (hcancel : pc = .inProvider ∨ pc = .waiting → s.retirements id = false) :
    (∀ s'', Lib.Reaches machine s' s'' → ¬ s''.Runs id) ∧ s'.subscriptionTopic id = none ∧
      ∀ tp, id ∉ (s'.topics tp).entries := by
  have hi := inv_reachable hreach
  have hi' := (evolves_step hi hstep).inv
  have hq := quiet_of_throw hi hcall hstep hthrows.1 hthrows.2 houtside hcancel
  have hdead := hi'.gone id (.inl hq.1)
  refine ⟨fun s'' hlater => (quiet_forever hi' hq hlater).2, hdead.1, ?_⟩
  intro tp hmem
  have hlive := (hi'.live id tp).mpr hmem
  rw [hdead.1] at hlive
  cases hlive

end

/-- Thread 0 subscribes and is inside the provider; thread 1 already delivers to the callback,
which returns; then the provider fails. -/
def deliveredThenFailed : List (ThreadId × Action Nat Nat) :=
  [(0, .subscribe 7 ⟨"", 0⟩), (1, .deliver 7 42), (1, .advance), (1, .advance),
    (1, .handlerReturns false), (0, .providerReturns false), (0, .advance), (0, .advance),
    (0, .advance)]

theorem failed_subscribe_quiet_delivered :
    ∃ s s' : State Nat Nat, Lib.run machine State.init deliveredThenFailed = some s ∧
      s.stack 0 = [.subscribe 7 ⟨"", 0⟩ 1 .release] ∧ step s 0 .advance = some s' ∧
      s'.stack 0 = [] ∧ s'.subscriptionTopic 1 = none := by
  have hrun : (Lib.run machine State.init deliveredThenFailed).isSome := rfl
  obtain ⟨s, hs⟩ := Option.isSome_iff_exists.mp hrun
  have hstack : s.stack 0 = [.subscribe 7 ⟨"", 0⟩ 1 .release] := by
    cases hs
    rfl
  have hnext : (step s 0 .advance).isSome := by
    cases hs
    rfl
  obtain ⟨s', hs'⟩ := Option.isSome_iff_exists.mp hnext
  have hreturn : s'.stack 0 = [] := by
    cases hs
    cases hs'
    rfl
  have hquiet := failed_subscribe_quiet ⟨deliveredThenFailed, hs⟩ hstack hs' ⟨hreturn, trivial⟩ rfl
    (by rintro (h | h) <;> cases h)
  exact ⟨s, s', hs, hstack, hs', hreturn, hquiet.2.1⟩

/-- Thread 0 is inside the provider and thread 1 inside the callback, which has passed its id
on: thread 2 has withdrawn the entry and waits for the gate. -/
def cancelledThenFailed : List (ThreadId × Action Nat Nat) :=
  [(0, .subscribe 7 ⟨"", 0⟩), (1, .deliver 7 42), (1, .advance), (1, .advance),
    (2, .unsubscribe 1), (2, .advance), (2, .advance), (2, .advance)]

/-- The provider fails now: the Subscribe throws at once, with thread 1 in its callback. -/
theorem subscribe_throws_running :
    ∃ s s' : State Nat Nat, Lib.run machine State.init cancelledThenFailed = some s ∧
      s.stack 0 = [.subscribe 7 ⟨"", 0⟩ 1 .inProvider] ∧
      step s 0 (.providerReturns false) = some s' ∧ s'.stack 0 = [] ∧ s'.Runs 1 := by
  refine ⟨_, _, rfl, rfl, rfl, rfl, 1, .fanout 42 [] (.running 1), ?_, rfl⟩
  exact mem_cons_self

end Fletcher.PubSub
