import Fletcher.PubSub.Rollback

/-!
# A delivery

A delivery takes the fan-out of its topic as it is, and visits the entries of that snapshot one
by one, while handlers and other threads subscribe and cancel as they like. Every subscription
that was in the fan-out then, and still is when the delivery ends, has been invoked once, with
the sample, and in the order of the subscriptions.

The calls a delivery makes are read off the run: `Delivering` is a run of any threads that does
not end the delivery, with the calls the delivery makes on the way. What carries the induction
is `Progress`: the snapshot is what was visited and what is left of it, and whoever was visited
was invoked, or retired.
-/

namespace Fletcher.PubSub

open List

variable {Topic Sample : Type} {s s' s'' : State Topic Sample} {t : ThreadId}
  {id : SubId} {above below st : List (Frame Topic Sample)}

section

variable [DecidableEq Topic]

/-! ## The calls of a delivery -/

/-- The callback that the step of `u` enters, if the fan-out is the one of thread `t` with
`depth` frames below it. -/
def invokes (t : ThreadId) (depth : Nat) (s : State Topic Sample) (u : ThreadId)
    (a : Action Topic Sample) : Option (SubId × Sample) :=
  match a, s.stack t with
  | .advance, .fanout sample _ (.locked id) :: below =>
    if u = t ∧ below.length = depth ∧ s.retired id = false then some (id, sample) else none
  | _, _ => none

/-- The step of `u` ends that fan-out. -/
def ends (t : ThreadId) (depth : Nat) (s : State Topic Sample) (u : ThreadId)
    (a : Action Topic Sample) : Bool :=
  match a, s.stack t with
  | .advance, .fanout _ [] .between :: below => u == t && below.length == depth
  | _, _ => false

/-- A run that does not end the delivery of thread `t` with `depth` frames below it, and the
calls the delivery makes in it. -/
inductive Delivering (t : ThreadId) (depth : Nat) (s : State Topic Sample) :
    State Topic Sample → List (SubId × Sample) → Prop
  | start : Delivering t depth s s []
  | step {r r' : State Topic Sample} {calls : List (SubId × Sample)} {u : ThreadId}
    {a : Action Topic Sample} (before : Delivering t depth s r calls)
    (goes : ends t depth r u a = false) (h : PubSub.step r u a = some r') :
    Delivering t depth s r' (calls ++ (invokes t depth r u a).toList)

theorem Delivering.trans {depth : Nat} {calls calls' : List (SubId × Sample)}
    (h : Delivering t depth s s' calls) (h' : Delivering t depth s' s'' calls') :
    Delivering t depth s s'' (calls ++ calls') := by
  induction h' with
  | start => rwa [append_nil]
  | step _ goes hstep ih =>
    rw [← append_assoc]
    exact ih.step goes hstep

/-- The same, computed from the steps. -/
def follow (t : ThreadId) (depth : Nat) : State Topic Sample →
    List (ThreadId × Action Topic Sample) → Option (State Topic Sample × List (SubId × Sample))
  | s, [] => some (s, [])
  | s, (u, a) :: labels =>
    if ends t depth s u a then none
    else (PubSub.step s u a).bind fun s' => (follow t depth s' labels).map fun r =>
      (r.1, (invokes t depth s u a).toList ++ r.2)

theorem delivering_of_follow {depth : Nat} : ∀ {labels : List (ThreadId × Action Topic Sample)}
    {s s' : State Topic Sample} {calls : List (SubId × Sample)},
    follow t depth s labels = some (s', calls) → Delivering t depth s s' calls
  | [], s, s', calls, h => by
    cases h
    exact .start
  | (u, a) :: labels, s, s', calls, h => by
    rw [follow] at h
    split at h
    · cases h
    · next hgoes =>
      obtain ⟨r, hr, h⟩ := Option.bind_eq_some_iff.mp h
      obtain ⟨⟨_, _⟩, hrest, h⟩ := Option.map_eq_some_iff.mp h
      cases h
      have hfst := Delivering.start.step (Bool.eq_false_iff.mpr hgoes) hr
      exact hfst.trans (delivering_of_follow hrest)

/-- The ids visited so far were invoked, in their order and with the sample, or are retired. -/
structure Served (s : State Topic Sample) (sample : Sample) (visited : List SubId)
    (calls : List (SubId × Sample)) : Prop where
  order : (calls.map Prod.fst).Sublist visited
  sample : ∀ c ∈ calls, c.2 = sample
  each : ∀ id ∈ visited, id ∈ calls.map Prod.fst ∨ s.retired id = true

/-- Where a fan-out is in its snapshot. -/
def Place (s : State Topic Sample) (sample : Sample) (snapshot : List SubId)
    (calls : List (SubId × Sample)) (rest : List SubId) : FanoutPhase → Prop
  | .between => ∃ visited, snapshot = visited ++ rest ∧ Served s sample visited calls
  | .locked id => ∃ visited, snapshot = visited ++ id :: rest ∧ Served s sample visited calls
  | .running id =>
    ∃ visited, snapshot = visited ++ id :: rest ∧ Served s sample (visited ++ [id]) calls

/-- The delivery over the snapshot is under way on the stack of `t`. -/
def Progress (t : ThreadId) (sample : Sample) (snapshot : List SubId)
    (below : List (Frame Topic Sample)) (s : State Topic Sample) (calls : List (SubId × Sample)) :
    Prop :=
  ∃ above rest phase, s.stack t = above ++ .fanout sample rest phase :: below ∧
    Place s sample snapshot calls rest phase

section Progress

variable {sample : Sample} {snapshot visited rest : List SubId} {calls : List (SubId × Sample)}
  {phase : FanoutPhase}

omit [DecidableEq Topic] in
theorem Served.mono (h : Served s sample visited calls)
    (hs : ∀ id, s.retired id = true → s'.retired id = true) : Served s' sample visited calls :=
  ⟨h.order, h.sample, fun id hid => (h.each id hid).imp_right (hs id)⟩

omit [DecidableEq Topic] in
theorem Place.mono (h : Place s sample snapshot calls rest phase)
    (hs : ∀ id, s.retired id = true → s'.retired id = true) :
    Place s' sample snapshot calls rest phase := by
  cases phase with
  | between =>
    obtain ⟨visited, hspl, hsrv⟩ := h
    exact ⟨visited, hspl, hsrv.mono hs⟩
  | locked id =>
    obtain ⟨visited, hspl, hsrv⟩ := h
    exact ⟨visited, hspl, hsrv.mono hs⟩
  | running id =>
    obtain ⟨visited, hspl, hsrv⟩ := h
    exact ⟨visited, hspl, hsrv.mono hs⟩

omit [DecidableEq Topic] in
/-- A visit that found the subscription retired. -/
theorem Served.skip (h : Served s sample visited calls) (hrtd : s.retired id = true) :
    Served s sample (visited ++ [id]) calls := by
  refine ⟨h.order.trans (sublist_append_left _ _), h.sample, ?_⟩
  intro i hi
  rcases mem_append.mp hi with hi | hi
  · exact h.each i hi
  · rw [mem_singleton.mp hi]
    exact .inr hrtd

omit [DecidableEq Topic] in
/-- A visit that invoked the callback. -/
theorem Served.call (h : Served s sample visited calls) (id : SubId) :
    Served s sample (visited ++ [id]) (calls ++ [(id, sample)]) := by
  refine ⟨?_, ?_, ?_⟩
  · rw [map_append]
    exact h.order.append (List.Sublist.refl _)
  · intro c hc
    rcases mem_append.mp hc with hc | hc
    · exact h.sample c hc
    · rw [mem_singleton.mp hc]
  · intro i hi
    rw [map_append]
    rcases mem_append.mp hi with hi | hi
    · exact (h.each i hi).imp_left (mem_append_left _)
    · exact .inl (mem_append_right _ hi)

/-- The frame is on top: the next step of its thread. -/
theorem place_step (hi : Inv s) {a : Action Topic Sample}
    (hst : s.stack t = .fanout sample rest phase :: below)
    (hpl : Place s sample snapshot calls rest phase)
    (hgoes : ends t below.length s t a = false) (h : step s t a = some s') :
    Progress t sample snapshot below s' (calls ++ (invokes t below.length s t a).toList) := by
  have hev := evolves_step hi h
  have hrtd : ∀ id, s.retired id = true → s'.retired id = true := fun id => hev.retired
  -- a call made from the handler leaves the frame as it is
  have hpush : s.stack t <:+ s'.stack t → invokes t below.length s t a = none →
      Progress t sample snapshot below s' (calls ++ (invokes t below.length s t a).toList) := by
    intro hsuf hnone
    obtain ⟨above, habove⟩ := hsuf
    rw [hnone, Option.toList_none, append_nil]
    exact ⟨above, rest, phase, by rw [← habove, hst], hpl.mono hrtd⟩
  cases a with
  | deliver _ _ | enterScope _ | subscribe _ _ | unsubscribe _ => exact hpush hev.keeps rfl
  | exitScope | providerReturns _ => simp [step, hst] at h
  | handlerReturns threw =>
    cases phase with
    | between => simp [step, hst] at h
    | locked id => simp [step, hst] at h
    | running id =>
      obtain ⟨visited, hspl, hsrv⟩ := hpl
      have hstk : s'.stack t = .fanout sample rest .between :: below := by
        simp only [step, hst] at h
        cases h
        exact setStack_stack
      have hnone : invokes t below.length s t (.handlerReturns threw) = none := rfl
      rw [hnone, Option.toList_none, append_nil]
      exact ⟨[], rest, .between, hstk, visited ++ [id], by rw [hspl, append_assoc]; rfl,
        hsrv.mono hrtd⟩
  | advance =>
    have hadv : advanceFanout s t sample rest below phase = some s' := by
      simpa [step, advance, hst] using h
    cases phase with
    | between =>
      obtain ⟨visited, hspl, hsrv⟩ := hpl
      cases rest with
      | nil => simp [ends, hst] at hgoes
      | cons id rest =>
        have hnone : invokes t below.length s t .advance = none := by simp [invokes, hst]
        rw [hnone, Option.toList_none, append_nil]
        simp only [advanceFanout] at hadv
        split at hadv
        · cases hadv
          exact ⟨[], rest, .locked id, setStack_stack, visited, hspl, hsrv.mono hrtd⟩
        · cases hadv
    | locked id =>
      obtain ⟨visited, hspl, hsrv⟩ := hpl
      simp only [advanceFanout] at hadv
      split at hadv
      · next hgone =>
        have hnone : invokes t below.length s t .advance = none := by simp [invokes, hst, hgone]
        rw [hnone, Option.toList_none, append_nil]
        cases hadv
        exact ⟨[], rest, .between, setStack_stack, visited ++ [id],
          by rw [hspl, append_assoc]; rfl, (hsrv.skip hgone).mono hrtd⟩
      · next hlive =>
        have hcall : invokes t below.length s t .advance = some (id, sample) := by
          simp [invokes, hst, hlive]
        rw [hcall]
        cases hadv
        exact ⟨[], rest, .running id, setStack_stack, visited, hspl, (hsrv.call id).mono hrtd⟩
    | running id => cases hadv

/-- **One step of any thread** keeps a delivery going, or is the step that ends it. -/
theorem progress_step (hi : Inv s) {u : ThreadId} {a : Action Topic Sample}
    (hpro : Progress t sample snapshot below s calls)
    (hgoes : ends t below.length s u a = false) (h : step s u a = some s') :
    Progress t sample snapshot below s' (calls ++ (invokes t below.length s u a).toList) := by
  obtain ⟨above, rest, phase, hst, hpl⟩ := hpro
  have hev := evolves_step hi h
  have hrtd : ∀ id, s.retired id = true → s'.retired id = true := fun id => hev.retired
  by_cases hu : u = t
  · subst hu
    cases above with
    | nil => exact place_step hi hst hpl hgoes h
    | cons f above =>
      -- another frame is on top, and it is not at the depth of the fan-out
      have hnone : invokes u below.length s u a = none := by
        unfold invokes
        split
        · next hcons =>
          rw [hst, cons_append, List.cons.injEq] at hcons
          rw [← hcons.2]
          refine if_neg ?_
          intro h
          have hlen := h.2.1
          simp only [length_append, length_cons] at hlen
          omega
        · rfl
      rw [hnone, Option.toList_none, append_nil]
      obtain ⟨above', hstk⟩ := (a.tail_suffix_keeps (s.stack u)).trans hev.keeps
      refine ⟨above' ++ above, rest, phase, ?_, hpl.mono hrtd⟩
      rw [← hstk, hst, append_assoc]
      rfl
  · have hnone : invokes t below.length s u a = none := by
      unfold invokes
      split
      · exact if_neg fun h => hu h.1
      · rfl
    rw [hnone, Option.toList_none, append_nil]
    refine ⟨above, rest, phase, ?_, hpl.mono hrtd⟩
    rw [hev.others t (Ne.symm hu)]
    exact hst

theorem Delivering.progress (hi : Inv s) (hsta : Progress t sample snapshot below s [])
    (h : Delivering t below.length s s' calls) :
    Inv s' ∧ Progress t sample snapshot below s' calls := by
  induction h with
  | start => exact ⟨hi, hsta⟩
  | step _ hgoes hstep ih =>
    exact ⟨(evolves_step ih.1 hstep).inv, progress_step ih.1 ih.2 hgoes hstep⟩

end Progress

/-- The failures that were absorbed are the handlers that threw. -/
theorem absorbed_run (hi : Inv s) {labels : List (ThreadId × Action Topic Sample)}
    (h : Lib.run machine s labels = some s') :
    s'.absorbed = s.absorbed + labels.countP fun l => l.2.throws := by
  induction labels generalizing s with
  | nil =>
    cases h
    rfl
  | cons l labels ih =>
    obtain ⟨r, hr, hrest⟩ := Option.bind_eq_some_iff.mp h
    have hstep := evolves_step hi hr
    rw [ih hstep.inv hrest, hstep.absorbed, countP_cons]
    omega

/-- **A delivery** invokes every subscription that is in the fan-out when it starts and still
subscribed when it ends exactly once, with the sample and in the order of the subscriptions,
whatever other threads and the handlers do meanwhile; and the failures that were absorbed are
the handler invocations that threw. -/
theorem delivery_exactly_once {topic : Topic} {sample : Sample} {s₁ s₂ : State Topic Sample}
    {calls : List (SubId × Sample)} {u : ThreadId} {a : Action Topic Sample}
    (hreach : Lib.Reaches machine State.init s)
    (hstart : step s t (.deliver topic sample) = some s₁)
    (hrun : Delivering t (s.stack t).length s₁ s₂ calls)
    (hend : ends t (s.stack t).length s₂ u a = true) :
    ((s.topics topic).entries.Pairwise (· < ·) ∧
      (calls.map Prod.fst).Sublist (s.topics topic).entries ∧ (∀ c ∈ calls, c.2 = sample) ∧
      ∀ id ∈ (s.topics topic).entries, (s₂.subscriptionTopic id).isSome →
        (calls.map Prod.fst).count id = 1) ∧
    ∀ (labels : List (ThreadId × Action Topic Sample)) (r : State Topic Sample),
      Lib.run machine State.init labels = some r →
        r.absorbed = labels.countP fun l => l.2.throws := by
  have hi := inv_reachable hreach
  have hordered := hi.ordered topic
  obtain ⟨-, rfl⟩ : callable (s.stack t) = true ∧
      s.setStack t (.fanout sample (s.topics topic).entries .between :: s.stack t) = s₁ := by
    simpa [step] using hstart
  have hplace : Progress t sample (s.topics topic).entries (s.stack t)
      (s.setStack t (.fanout sample (s.topics topic).entries .between :: s.stack t)) [] :=
    ⟨[], _, .between, setStack_stack, [], rfl, List.Sublist.refl _, by simp, by simp⟩
  obtain ⟨hi₂, above, _, _, hst, hplace⟩ := hrun.progress (evolves_step hi hstart).inv hplace
  -- the step that ends the delivery finds its frame on top, with nothing left to visit
  have hdone : ∃ visited, (s.topics topic).entries = visited ∧ Served s₂ sample visited calls := by
    unfold ends at hend
    split at hend
    · next hcons =>
      rw [Bool.and_eq_true] at hend
      have hdepth := eq_of_beq hend.2
      have habove : above = [] := by
        refine eq_nil_of_length_eq_zero ?_
        have hlength := congrArg List.length (hst.symm.trans hcons)
        simp only [length_append, length_cons] at hlength
        omega
      subst habove
      rw [hst, nil_append, List.cons.injEq] at hcons
      cases hcons.1
      obtain ⟨visited, hsplit, hserved⟩ := hplace
      rw [append_nil] at hsplit
      exact ⟨visited, hsplit, hserved⟩
    · cases hend
  obtain ⟨visited, hvisited, hserved⟩ := hdone
  subst hvisited
  refine ⟨⟨hordered, hserved.order, hserved.sample, ?_⟩, ?_⟩
  · intro id hid hlive
    have hmem : id ∈ calls.map Prod.fst := by
      rcases hserved.each id hid with hmem | hretired
      · exact hmem
      · -- a retired subscription is not live
        have hdead := hi₂.gone id (.inl hretired)
        rw [hdead.1] at hlive
        cases hlive
    have hnodup : (s.topics topic).entries.Nodup := hordered.imp Nat.ne_of_lt
    exact count_eq_one_of_mem (hnodup.sublist hserved.order) hmem
  · intro labels r h
    rw [absorbed_run inv_init h]
    exact Nat.zero_add _

end

/-- Two subscriptions on one topic. -/
def twoSubscriptions : List (ThreadId × Action Nat Nat) :=
  [(0, .subscribe 7 ⟨"", 0⟩), (0, .providerReturns true), (0, .subscribe 7 ⟨"", 0⟩)]

/-- Thread 1 visits both, and the first handler throws. -/
def bothVisited : List (ThreadId × Action Nat Nat) :=
  [(1, .advance), (1, .advance), (1, .handlerReturns true), (1, .advance), (1, .advance),
    (1, .handlerReturns false)]

theorem delivery_exactly_once_two : ∃ (s s₁ s₂ : State Nat Nat) (calls : List (SubId × Nat)),
    Lib.run machine State.init twoSubscriptions = some s ∧ step s 1 (.deliver 7 42) = some s₁ ∧
      Delivering 1 0 s₁ s₂ calls ∧ ends 1 0 s₂ 1 .advance = true ∧
      ∀ id ∈ [1, 2], (calls.map Prod.fst).count id = 1 := by
  have hrun : (Lib.run machine (State.init : State Nat Nat) twoSubscriptions).isSome := rfl
  obtain ⟨s, hs⟩ := Option.isSome_iff_exists.mp hrun
  have hstart : (step s 1 (.deliver 7 42)).isSome := by
    cases hs
    rfl
  obtain ⟨s₁, hs₁⟩ := Option.isSome_iff_exists.mp hstart
  have hfollow : (follow 1 0 s₁ bothVisited).isSome := by
    cases hs
    cases hs₁
    rfl
  obtain ⟨⟨s₂, calls⟩, hs₂⟩ := Option.isSome_iff_exists.mp hfollow
  have hfacts : s.stack 1 = [] ∧ ends 1 0 s₂ 1 .advance = true ∧ (s.topics 7).entries = [1, 2] ∧
      ∀ id ∈ [1, 2], (s₂.subscriptionTopic id).isSome := by
    cases hs
    cases hs₁
    cases hs₂
    exact ⟨rfl, rfl, rfl, by decide⟩
  obtain ⟨hstack, hend, hentries, hlive⟩ := hfacts
  have hdelivering := delivering_of_follow hs₂
  have hdepth : (s.stack 1).length = 0 := by rw [hstack]; rfl
  refine ⟨s, s₁, s₂, calls, hs, hs₁, hdelivering, hend, ?_⟩
  intro id hid
  have honce := delivery_exactly_once ⟨twoSubscriptions, hs⟩ hs₁ (by rwa [hdepth])
    (u := 1) (a := .advance) (by rwa [hdepth])
  exact honce.1.2.2.2 id (by rwa [hentries]) (hlive id hid)

end Fletcher.PubSub
