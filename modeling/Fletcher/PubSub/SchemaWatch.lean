import Fletcher.Lib.Transition
import Fletcher.PubSub.Subscriber

/-!
# Schema watches

`SubscribeSchema` and `UnsubscribeSchema` count the watches of a topic, and only the first and
the last of them go to the provider, with `mu` released. This is the machine of one topic: what
the Subscriber keeps, which threads are in the provider, what the provider holds, and who was
handed a watch and has not given it back. A call that waits for `schema_watch_in_progress` has
done nothing yet, so its step is the one it makes when it wakes.

The flag is a lock on the provider's watch: the machine is in one of three situations (`Inv`),
and the count is right in all of them. It has 32 bits, so with that many watches at a time it
is not (`schemaWatches_wrap`).
-/

namespace Fletcher.PubSub.SchemaWatch

open Lib

variable {Arrival : Type}

structure State (Arrival : Type) where
  schemaWatches : Nat := 0
  schemaWatchInProgress : Bool := false
  schemaWatchArrival : Option Arrival := none
  /-- The threads in the provider's `SubscribeSchema`. -/
  opening : List ThreadId := []
  /-- The threads in the provider's `UnsubscribeSchema`. -/
  closing : List ThreadId := []
  /-- The threads with a watch they have not given back, once for every watch. -/
  owners : List ThreadId := []
  /-- The provider's watch. -/
  held : Option Arrival := none

inductive Event (Arrival : Type) where
  /-- `inside` says whether the caller is inside a delivery of the provider. -/
  | subscribe (t : ThreadId) (inside : Bool)
  /-- The provider's `SubscribeSchema` returns, or throws. -/
  | opened (t : ThreadId) (arrival : Option Arrival)
  | unsubscribe (t : ThreadId)
  /-- The provider's `UnsubscribeSchema` returns, or throws and keeps the watch. -/
  | closed (t : ThreadId) (ok : Bool)

inductive Outcome (Arrival : Type) where
  | pending
  /-- A `SubscribeSchema` returns. -/
  | returns (arrival : Option Arrival)
  | released
  | throws

/-- `++ts.schema_watches`. -/
def increment (watches : Nat) : Nat := (watches + 1) % 2 ^ 32

namespace State

/-- `SubscribeSchema` after the wait. -/
def enter (s : State Arrival) (t : ThreadId) : State Arrival × Outcome Arrival :=
  if 0 < s.schemaWatches then
    ({ s with schemaWatches := increment s.schemaWatches, owners := t :: s.owners },
      .returns s.schemaWatchArrival)
  else
    ({ s with
      schemaWatchInProgress := true
      schemaWatches := increment s.schemaWatches
      opening := t :: s.opening }, .pending)

/-- `UnsubscribeSchema` up to the provider. -/
def leave (s : State Arrival) (t : ThreadId) : State Arrival × Outcome Arrival :=
  if s.schemaWatches = 0 then ({ s with owners := s.owners.erase t }, .released)
  else if 0 < s.schemaWatches - 1 then
    ({ s with schemaWatches := s.schemaWatches - 1, owners := s.owners.erase t }, .released)
  else
    ({ s with
      schemaWatchInProgress := true
      schemaWatches := s.schemaWatches - 1
      closing := t :: s.closing }, .pending)

/-- The thread is in the provider. -/
def Busy (s : State Arrival) (t : ThreadId) : Prop := t ∈ s.opening ∨ t ∈ s.closing

instance (s : State Arrival) (t : ThreadId) : Decidable (s.Busy t) :=
  inferInstanceAs (Decidable (_ ∨ _))

/-- One critical section, and what the call it belongs to returns. A thread releases only what
it was handed. -/
def next (s : State Arrival) : Event Arrival → Option (State Arrival × Outcome Arrival)
  | .subscribe t inside =>
    if s.Busy t then none
    else if inside then some (s, .throws)
    else if s.schemaWatchInProgress then none
    else some (s.enter t)
  | .opened t arrival =>
    if t ∈ s.opening then
      match arrival with
      | some a => some ({ s with
          schemaWatchArrival := some a
          schemaWatchInProgress := false
          opening := s.opening.erase t
          owners := t :: s.owners
          held := some a }, .returns (some a))
      | none => some ({ s with
          schemaWatches := s.schemaWatches - 1
          schemaWatchInProgress := false
          opening := s.opening.erase t }, .throws)
    else none
  | .unsubscribe t => if ¬ s.Busy t ∧ t ∈ s.owners then some (s.leave t) else none
  | .closed t ok =>
    if t ∈ s.closing then
      if ok then some ({ s with
        schemaWatchInProgress := false
        closing := s.closing.erase t
        owners := s.owners.erase t
        held := none }, .released)
      else some ({ s with
        schemaWatches := increment s.schemaWatches
        schemaWatchInProgress := false
        closing := s.closing.erase t }, .throws)
    else none

def step (s : State Arrival) (e : Event Arrival) : Option (State Arrival) := (s.next e).map Prod.fst

/-- A step after which fewer than 2^32 watches are out. -/
def stepFew (s : State Arrival) (e : Event Arrival) : Option (State Arrival) :=
  (s.step e).filter fun s' => s'.owners.length < 2 ^ 32

end State

/-- The three situations: no call is in the provider, the first `SubscribeSchema` is, or the
last `UnsubscribeSchema`. -/
inductive Inv : State Arrival → Prop
  | none (arrival : Option Arrival) : Inv ⟨0, false, arrival, [], [], [], none⟩
  | some (a : Arrival) (owners : List ThreadId) (pos : owners ≠ []) (few : owners.length < 2 ^ 32) :
    Inv ⟨owners.length, false, some a, [], [], owners, some a⟩
  | opening (t : ThreadId) (arrival : Option Arrival) : Inv ⟨1, true, arrival, [t], [], [], none⟩
  | closing (t : ThreadId) (a : Arrival) : Inv ⟨0, true, some a, [], [t], [t], some a⟩

/-- What a `SubscribeSchema` that returns hands out is what the provider holds. -/
def HandsOut (s : State Arrival) : Outcome Arrival → Prop
  | .returns arrival => arrival.isSome ∧ s.held = arrival
  | _ => True

variable {s s' : State Arrival} {e : Event Arrival} {o : Outcome Arrival}

/-- A step from the situation in which the provider holds a watch. -/
theorem inv_next_some {a : Arrival} {owners : List ThreadId} (hpos : owners ≠ [])
    (hn : State.next ⟨owners.length, false, some a, [], [], owners, some a⟩ e = some (s', o))
    (hfew : s'.owners.length < 2 ^ 32) : Inv s' ∧ HandsOut s' o := by
  have hlen := List.length_pos_iff.mpr hpos
  cases e with
  | subscribe t inside =>
    cases inside with
    | true =>
      cases hn
      exact ⟨.some a owners hpos hfew, trivial⟩
    | false =>
      simp only [State.next, State.Busy, State.enter, hlen] at hn
      cases hn
      have hcnt : increment owners.length = (t :: owners).length := Nat.mod_eq_of_lt hfew
      rw [hcnt]
      exact ⟨.some a (t :: owners) (List.cons_ne_nil _ _) hfew, rfl, rfl⟩
  | unsubscribe t =>
    obtain ⟨hmem, hn⟩ : t ∈ owners ∧ State.leave _ t = (s', o) := by
      simpa [State.next, State.Busy] using hn
    simp only [State.leave, Nat.ne_of_gt hlen, if_false] at hn
    split at hn
    · next hmore =>
      cases hn
      rw [← List.length_erase_of_mem hmem] at hmore ⊢
      exact ⟨.some a _ (List.length_pos_iff.mp hmore) hfew, trivial⟩
    · next hlast =>
      cases hn
      obtain ⟨u, rfl⟩ := List.length_eq_one_iff.mp (by omega : owners.length = 1)
      obtain rfl := List.mem_singleton.mp hmem
      exact ⟨.closing t a, trivial⟩
  | opened _ _ | closed _ _ => cases hn

/-- **One step** keeps the count, and hands out the watch the provider holds. -/
theorem inv_next (h : Inv s) (hn : s.next e = some (s', o)) (hfew : s'.owners.length < 2 ^ 32) :
    Inv s' ∧ HandsOut s' o := by
  cases h with
  | some a owners hpos _ => exact inv_next_some hpos hn hfew
  | none arrival =>
    cases e with
    | subscribe t inside =>
      cases inside with
      | true =>
        cases hn
        exact ⟨.none arrival, trivial⟩
      | false =>
        cases hn
        exact ⟨.opening t arrival, trivial⟩
    | unsubscribe _ => simp [State.next] at hn
    | opened _ _ | closed _ _ => cases hn
  | opening u arrival =>
    cases e with
    | subscribe t inside =>
      simp only [State.next, State.Busy] at hn
      split at hn
      · cases hn
      · cases inside <;> cases hn
        exact ⟨.opening u arrival, trivial⟩
    | opened t result =>
      simp only [State.next] at hn
      split at hn
      · next hmem =>
        obtain rfl := List.mem_singleton.mp hmem
        cases result <;> cases hn
        · simpa using ⟨Inv.none arrival, trivial⟩
        · next a =>
          have hi := Inv.some a [t] (List.cons_ne_nil t []) (by simp)
          simpa using ⟨hi, rfl, rfl⟩
      · cases hn
    | unsubscribe _ => simp [State.next] at hn
    | closed _ _ => cases hn
  | closing u a =>
    cases e with
    | subscribe t inside =>
      simp only [State.next, State.Busy] at hn
      split at hn
      · cases hn
      · cases inside <;> cases hn
        exact ⟨.closing u a, trivial⟩
    | closed t ok =>
      simp only [State.next] at hn
      split at hn
      · next hmem =>
        obtain rfl := List.mem_singleton.mp hmem
        cases ok <;> cases hn
        · have hi := Inv.some a [t] (List.cons_ne_nil t []) (by simp)
          simpa [increment] using ⟨hi, trivial⟩
        · simpa using ⟨Inv.none (some a), trivial⟩
      · cases hn
    | unsubscribe t =>
      -- the only watch is the one being released
      simp [State.next, State.Busy] at hn
    | opened _ _ => cases hn

theorem inv_reachable (h : Reaches State.stepFew {} s) : Inv s := by
  refine h.preserves ?_ (.none none)
  intro s e s' hi hstep
  obtain ⟨hstep, hfew⟩ := Option.filter_eq_some_iff.mp hstep
  obtain ⟨⟨_, o⟩, hn, rfl⟩ := Option.map_eq_some_iff.mp hstep
  exact (inv_next hi hn (by simpa using hfew)).1

/-- **Schema watches.** In every interleaving in which fewer than 2^32 watches are out at a
time: when no call is in the provider the count is the number of watches handed out and not
given back, and the provider holds a watch exactly when it is positive; and every
`SubscribeSchema` that returns hands out the arrival of the watch the provider holds. -/
theorem schemaWatches_consistent (h : Reaches State.stepFew {} s) :
    (s.opening = [] → s.closing = [] → s.schemaWatches = s.owners.length ∧
      (s.held.isSome ↔ 0 < s.schemaWatches)) ∧
    ∀ e s' arrival, s.next e = some (s', .returns arrival) → s'.owners.length < 2 ^ 32 →
      arrival.isSome ∧ s'.held = arrival := by
  have hi := inv_reachable h
  refine ⟨?_, fun e s' arrival hn hfew => (inv_next hi hn hfew).2⟩
  intro hopen hclose
  cases hi with
  | none _ => simp
  | some a owners hpos _ => exact ⟨rfl, iff_of_true rfl (List.length_pos_iff.mpr hpos)⟩
  | opening _ _ => cases hopen
  | closing _ _ => cases hclose

/-- One watch handed out and given back, while another thread is refused at the door. -/
theorem schemaWatches_consistent_once : ∃ s : State Unit,
    run State.stepFew {} [.subscribe 0 false, .subscribe 1 true, .opened 0 (some ())] = some s ∧
      s.owners = [0] ∧ s.schemaWatches = s.owners.length ∧
        (s.held.isSome ↔ 0 < s.schemaWatches) := by
  refine ⟨_, rfl, rfl, ?_⟩
  exact (schemaWatches_consistent ⟨[.subscribe 0 false, .subscribe 1 true, .opened 0 (some ())],
    rfl⟩).1 rfl rfl

/-- Every further `SubscribeSchema` is one more watch, and one more modulo 2^32 in the count. -/
theorem watches_after (n : Nat) (hn : n < 2 ^ 32) : ∃ s : State Unit, Reaches State.step {} s ∧
    s = ⟨(n + 1) % 2 ^ 32, false, some (), [], [], List.replicate (n + 1) 0, some ()⟩ := by
  induction n with
  | zero => exact ⟨_, ⟨[.subscribe 0 false, .opened 0 (some ())], rfl⟩, rfl⟩
  | succ n ih =>
    obtain ⟨s, hs, rfl⟩ := ih (by omega)
    refine ⟨_, hs.trans (Reaches.single (a := .subscribe 0 false) ?_), rfl⟩
    have hpos : 0 < (n + 1) % 2 ^ 32 := by omega
    have hcnt : increment ((n + 1) % 2 ^ 32) = (n + 1 + 1) % 2 ^ 32 := Nat.mod_add_mod _ _ _
    simp only [State.step, State.next, State.Busy, State.enter, hpos, hcnt]
    rfl

/-- 2^32 watches are out, the provider holds one, no call is in progress, and the count is 0. -/
theorem schemaWatches_wrap : ∃ s : State Unit, Reaches State.step {} s ∧ s.opening = [] ∧
    s.closing = [] ∧ s.owners.length = 2 ^ 32 ∧ s.held = some () ∧ s.schemaWatches = 0 := by
  obtain ⟨s, hs, rfl⟩ := watches_after (2 ^ 32 - 1) (by decide)
  exact ⟨_, hs, rfl, rfl, List.length_replicate, rfl, by decide⟩

end Fletcher.PubSub.SchemaWatch
