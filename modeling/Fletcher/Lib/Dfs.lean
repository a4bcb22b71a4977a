import Fletcher.Lib.Fuel
import Fletcher.Lib.Graph

/-!
# Depth-first listing

A depth-first walk that lists each vertex after its successors. What is listed or dropped is
remembered, what is in progress is guarded, and a vertex met again in either way is left
alone. The walk ends on every finite graph, because the vertices in progress are a path
without repetition.

The guard is also where the order can fail. A successor in progress is not listed before its
predecessor, so all that holds in general is `Inv.before`: each successor stands before the
vertex, *or* there is a walk from it back to the vertex.
-/

namespace Lib

open List

/-- The second stands in the list, after the first. -/
def Before {α : Type} (l : List α) (a b : α) : Prop := ∃ pre post, l = pre ++ b :: post ∧ a ∈ pre

theorem Before.append {α : Type} {l : List α} {a b : α} (h : Before l a b) (l' : List α) :
    Before (l ++ l') a b := by
  obtain ⟨pre, post, rfl, ha⟩ := h
  exact ⟨pre, post ++ l', by simp, ha⟩

namespace Dfs

variable {α ε : Type}

structure State (α : Type) where
  visiting : List α
  emitted : List α
  order : List α

def State.start : State α := ⟨[], [], []⟩

/-- What a vertex is to the walk: left alone, marked as done, or walked through and listed. -/
inductive Verdict where
  | skip | drop | list
  deriving DecidableEq, Repr

section Walk

variable [DecidableEq α] (verdict : α → Verdict) (next : α → List α) (outOfFuel : ε)

def visit : Nat → State α → α → Except ε (State α)
  | 0, _, _ => .error outOfFuel
  | k + 1, s, a =>
    if a ∈ s.emitted then .ok s
    else if a ∈ s.visiting then .ok s
    else
      match verdict a with
      | .skip => .ok s
      | .drop => .ok { s with emitted := a :: s.emitted }
      | .list => do
        let s' ← (next a).foldlM (visit k) { s with visiting := a :: s.visiting }
        pure ⟨s'.visiting.erase a, a :: s'.emitted, s'.order ++ [a]⟩

/-- The vertices listed from the roots. -/
def listFrom (k : Nat) (roots : List α) : Except ε (List α) := do
  let s ← roots.foldlM (visit verdict next outOfFuel k) .start
  pure s.order

end Walk

variable {verdict : α → Verdict} {next : α → List α} {outOfFuel : ε}

section

variable [DecidableEq α]

/-- What a visit to a vertex that is neither done nor in progress comes down to. -/
theorem visit_fresh {k : Nat} {s : State α} {a : α} (he : a ∉ s.emitted) (hv : a ∉ s.visiting) :
    visit verdict next outOfFuel (k + 1) s a = (match verdict a with
      | .skip => .ok s
      | .drop => .ok { s with emitted := a :: s.emitted }
      | .list => do
        let s' ← (next a).foldlM (visit verdict next outOfFuel k)
          { s with visiting := a :: s.visiting }
        pure ⟨s'.visiting.erase a, a :: s'.emitted, s'.order ++ [a]⟩) := by
  rw [visit, if_neg he, if_neg hv]

/-! ## It ends -/

theorem visit_below : ∀ (k : Nat) (s : State α) (a : α),
    Below (visit verdict next outOfFuel k s a) (visit verdict next outOfFuel (k + 1) s a)
  | 0, _, _ => below_error
  | k + 1, s, a => by
    have ih : ∀ s a, Below (visit verdict next outOfFuel k s a)
        (visit verdict next outOfFuel (k + 1) s a) := visit_below k
    by_cases he : a ∈ s.emitted
    · rw [visit, visit, if_pos he, if_pos he]
      exact .refl _
    · by_cases hv : a ∈ s.visiting
      · rw [visit, visit, if_neg he, if_pos hv, if_neg he, if_pos hv]
        exact .refl _
      · rw [visit_fresh he hv, visit_fresh he hv]
        split
        · exact .refl _
        · exact .refl _
        · exact Below.bind (.foldlM ih _ _) fun _ => .refl _

omit [DecidableEq α] in
/-- A loop of visits, each of which returns with the path it was given. -/
theorem foldlM_returns {f : State α → α → Except ε (State α)} {path : List α}
    (h : ∀ a s, s.visiting = path → ∃ s', f s a = .ok s' ∧ s'.visiting = path) :
    ∀ (as : List α) (s : State α), s.visiting = path →
    ∃ s', as.foldlM f s = .ok s' ∧ s'.visiting = path
  | [], s, hs => ⟨s, rfl, hs⟩
  | a :: as, s, hs => by
    obtain ⟨s₁, h₁, hs₁⟩ := h a s hs
    obtain ⟨s₂, h₂, hs₂⟩ := foldlM_returns h as s₁ hs₁
    exact ⟨s₂, by rw [foldlM_cons, h₁]; exact h₂, hs₂⟩

/-- The vertices in progress bound the depth, and are the same after a visit. -/
theorem visit_returns [Fintype α] {k : Nat} {s : State α} (a : α) (hnd : s.visiting.Nodup)
    (hk : Fintype.card α < k + s.visiting.length) :
    ∃ s', visit verdict next outOfFuel k s a = .ok s' ∧ s'.visiting = s.visiting := by
  refine guarded (P := fun k path a => ∀ s : State α, s.visiting = path →
    ∃ s', visit verdict next outOfFuel k s a = .ok s' ∧ s'.visiting = path) ?_ ?_ a hnd hk s rfl
  · intro k path a ha s hs
    refine ⟨s, ?_, hs⟩
    have hv : a ∈ s.visiting := hs ▸ ha
    rw [visit, if_pos hv, ite_self]
  · intro k path a ha ih s hs
    by_cases he : a ∈ s.emitted
    · exact ⟨s, by rw [visit, if_pos he], hs⟩
    · rw [visit_fresh he (hs ▸ ha)]
      cases verdict a with
      | skip => exact ⟨s, rfl, hs⟩
      | drop => exact ⟨_, rfl, hs⟩
      | list =>
        obtain ⟨s', h', hs'⟩ := foldlM_returns ih (next a) { s with visiting := a :: s.visiting }
          (by rw [hs])
        refine ⟨_, by rw [h']; rfl, ?_⟩
        rw [hs', erase_cons_head]

theorem listFrom_below (k : Nat) (roots : List α) : Below (listFrom verdict next outOfFuel k roots)
      (listFrom verdict next outOfFuel (k + 1) roots) :=
  Below.bind (.foldlM (fun s a => visit_below k s a) _ _) fun _ => .refl _

/-- A listing takes no more fuel than there are vertices, and one. -/
theorem listFrom_halts [Fintype α] (roots : List α) :
    Halts fun k => listFrom verdict next outOfFuel k roots := by
  obtain ⟨s, hs, -⟩ := foldlM_returns (f := visit verdict next outOfFuel (Fintype.card α + 1))
    (fun a s hs => by
      have hk : Fintype.card α < Fintype.card α + 1 + s.visiting.length := by omega
      obtain ⟨s', h', hs'⟩ := visit_returns a (by rw [hs]; exact nodup_nil) hk
      exact ⟨s', h', hs'.trans hs⟩) roots .start rfl
  exact ⟨s.order, settles_of_ok (fun k => listFrom_below k roots) (bind_eq_ok_iff.mpr ⟨s, hs, rfl⟩)⟩

end

/-! ## What is listed, and in which order -/

/-- The walk goes from the first vertex to the second. -/
def Follows (verdict : α → Verdict) (next : α → List α) (a b : α) : Prop :=
  verdict a = .list ∧ b ∈ next a

/-- The vertex is done with, in progress, or none of the walk's business. -/
def Done (verdict : α → Verdict) (s : State α) (a : α) : Prop :=
  a ∈ s.emitted ∨ a ∈ s.visiting ∨ verdict a = .skip

/-- The invariant of the walk. `Seen` is any set that is closed under the edges the walk
follows; what is listed is in it. -/
structure Inv (verdict : α → Verdict) (next : α → List α) (Seen : α → Prop) (s : State α) :
    Prop where
  nodup : s.order.Nodup
  listed : ∀ a, a ∈ s.order ↔ a ∈ s.emitted ∧ verdict a = .list
  path : s.visiting.Nodup
  apart : ∀ a ∈ s.visiting, a ∉ s.emitted
  seen : ∀ a ∈ s.order, Seen a
  closed : ∀ a ∈ s.order, ∀ b ∈ next a, Done verdict s b
  before : ∀ a ∈ s.order, ∀ b ∈ next a, verdict b = .list →
    Before s.order b a ∨ Relation.TransGen (Follows verdict next) b a

theorem Inv.start {Seen : α → Prop} : Inv verdict next Seen .start where
  nodup := nodup_nil
  listed := by simp [State.start]
  path := nodup_nil
  apart := by simp [State.start]
  seen := by simp [State.start]
  closed := by simp [State.start]
  before := by simp [State.start]

/-- What a visit may change. -/
structure Grows (s s' : State α) : Prop where
  visiting : s'.visiting = s.visiting
  emitted : ∀ a ∈ s.emitted, a ∈ s'.emitted

theorem Grows.refl (s : State α) : Grows s s := ⟨rfl, fun _ h => h⟩

theorem Grows.trans {s s' s'' : State α} (h : Grows s s') (h' : Grows s' s'') : Grows s s'' :=
  ⟨h'.visiting.trans h.visiting, fun a ha => h'.emitted a (h.emitted a ha)⟩

theorem Done.grows {s s' : State α} {a : α} (h : Done verdict s a) (hg : Grows s s') :
    Done verdict s' a := by
  rcases h with h | h | h
  · exact .inl (hg.emitted a h)
  · exact .inr (.inl (hg.visiting ▸ h))
  · exact .inr (.inr h)

section Spec

variable {Seen : α → Prop}

/-- A vertex that is only marked. -/
theorem Inv.drop {s : State α} {a : α} (h : Inv verdict next Seen s) (hv : a ∉ s.visiting)
    (hdrop : verdict a = .drop) :
    Inv verdict next Seen { s with emitted := a :: s.emitted } where
  nodup := h.nodup
  listed := by
    intro b
    rw [h.listed, mem_cons]
    constructor
    · exact fun hb => ⟨.inr hb.1, hb.2⟩
    · intro hb
      rcases hb with ⟨rfl | hb, hl⟩
      · rw [hdrop] at hl
        cases hl
      · exact ⟨hb, hl⟩
  path := h.path
  apart := by
    intro b hb hmem
    rcases mem_cons.mp hmem with rfl | hmem
    · exact hv hb
    · exact h.apart b hb hmem
  seen := h.seen
  closed := fun b hb c hc => (h.closed b hb c hc).grows ⟨rfl, fun _ h => mem_cons_of_mem _ h⟩
  before := h.before

/-- A vertex in progress is listed when each of its successors is done with. -/
theorem Inv.list {s : State α} {a : α} {path : List α} (h : Inv verdict next Seen s)
    (hvsg : s.visiting = a :: path) (hlist : verdict a = .list) (hseen : Seen a)
    (hrch : ∀ b ∈ path, Relation.TransGen (Follows verdict next) b a)
    (hdone : ∀ b ∈ next a, Done verdict s b) :
    Inv verdict next Seen ⟨path, a :: s.emitted, s.order ++ [a]⟩ := by
  have hpath : a ∉ path ∧ path.Nodup := nodup_cons.mp (hvsg ▸ h.path)
  have hfre : a ∉ s.emitted := h.apart a (by rw [hvsg]; exact mem_cons_self)
  have hord : a ∉ s.order := fun ha => hfre ((h.listed a).mp ha).1
  have hmem : ∀ b, b ∈ s.order ++ [a] ↔ b ∈ s.order ∨ b = a := by simp
  -- what was done with while `a` was in progress still is
  have hkeep : ∀ b, Done verdict s b →
      Done verdict (⟨path, a :: s.emitted, s.order ++ [a]⟩ : State α) b := by
    intro b hb
    rcases hb with hb | hb | hb
    · exact .inl (mem_cons_of_mem a hb)
    · rw [hvsg] at hb
      rcases mem_cons.mp hb with rfl | hb
      · exact .inl mem_cons_self
      · exact .inr (.inl hb)
    · exact .inr (.inr hb)
  constructor
  · exact nodup_append.mpr ⟨h.nodup, nodup_singleton a, by
      intro b hb c hc
      rw [mem_singleton] at hc
      exact fun hbc => hord (hc ▸ hbc ▸ hb)⟩
  · intro b
    rw [hmem, h.listed, mem_cons]
    constructor
    · intro hb
      rcases hb with hb | rfl
      · exact ⟨.inr hb.1, hb.2⟩
      · exact ⟨.inl rfl, hlist⟩
    · intro hb
      rcases hb with ⟨rfl | hb, hl⟩
      · exact .inr rfl
      · exact .inl ⟨hb, hl⟩
  · exact hpath.2
  · intro b hb hb'
    rcases mem_cons.mp hb' with rfl | hb'
    · exact hpath.1 hb
    · exact h.apart b (by rw [hvsg]; exact mem_cons_of_mem a hb) hb'
  · intro b hb
    rcases (hmem b).mp hb with hb | rfl
    · exact h.seen b hb
    · exact hseen
  · intro b hb c hc
    rcases (hmem b).mp hb with hb | rfl
    · exact hkeep c (h.closed b hb c hc)
    · exact hkeep c (hdone c hc)
  · intro b hb c hc hl
    rcases (hmem b).mp hb with hb | rfl
    · rcases h.before b hb c hc hl with hbef | hback
      · exact .inl (hbef.append [a])
      · exact .inr hback
    · rcases hdone c hc with hemi | hin | hskip
      · exact .inl ⟨s.order, [], rfl, (h.listed c).mpr ⟨hemi, hl⟩⟩
      · -- the guard: `c` is on the path that led to the vertex
        rw [hvsg] at hin
        rcases mem_cons.mp hin with rfl | hin
        · exact .inr (.single ⟨hlist, hc⟩)
        · exact .inr (hrch c hin)
      · rw [hskip] at hl
        cases hl

theorem foldlM_spec {f : State α → α → Except ε (State α)} {path : List α} {P : α → Prop}
    (h : ∀ {s s' : State α} {a : α}, P a → Inv verdict next Seen s → s.visiting = path →
      f s a = .ok s' → Inv verdict next Seen s' ∧ Grows s s' ∧ Done verdict s' a) :
    ∀ {as : List α} {s s' : State α}, (∀ a ∈ as, P a) → Inv verdict next Seen s →
    s.visiting = path → as.foldlM f s = .ok s' →
    Inv verdict next Seen s' ∧ Grows s s' ∧ ∀ a ∈ as, Done verdict s' a
  | [], s, s', _, hinv, _, hrun => by
    cases hrun
    exact ⟨hinv, .refl _, fun a ha => nomatch ha⟩
  | a :: as, s, s', hP, hinv, hpath, hrun => by
    rw [foldlM_cons] at hrun
    obtain ⟨_, h₁, hrun⟩ := bind_eq_ok_iff.mp hrun
    obtain ⟨hinv₁, hgr₁, hdone⟩ := h (hP a mem_cons_self) hinv hpath h₁
    obtain ⟨hinv', hgr', hrest⟩ :=
      foldlM_spec h (fun b hb => hP b (mem_cons_of_mem a hb)) hinv₁
        (hgr₁.visiting.trans hpath) hrun
    refine ⟨hinv', hgr₁.trans hgr', fun b hb => ?_⟩
    rcases mem_cons.mp hb with rfl | hb
    · exact hdone.grows hgr'
    · exact hrest b hb

section

variable [DecidableEq α]

/-- **A visit** keeps the invariant, changes nothing on the path it was called on, and is done
with its vertex. -/
theorem visit_spec (hcl : ∀ a b, Seen a → Follows verdict next a b → Seen b) :
    ∀ {k : Nat} {s s' : State α} {a : α}, Seen a →
    (∀ b ∈ s.visiting, Relation.TransGen (Follows verdict next) b a) → Inv verdict next Seen s →
    visit verdict next outOfFuel k s a = .ok s' →
    Inv verdict next Seen s' ∧ Grows s s' ∧ Done verdict s' a
  | 0, _, _, _, _, _, _, h => nomatch h
  | k + 1, s, s', a, hseen, hrch, hinv, h => by
    by_cases he : a ∈ s.emitted
    · rw [visit, if_pos he] at h
      cases h
      exact ⟨hinv, .refl _, .inl he⟩
    · by_cases hv : a ∈ s.visiting
      · rw [visit, if_neg he, if_pos hv] at h
        cases h
        exact ⟨hinv, .refl _, .inr (.inl hv)⟩
      · rw [visit_fresh he hv] at h
        cases hver : verdict a with
        | skip =>
          rw [hver] at h
          cases h
          exact ⟨hinv, .refl _, .inr (.inr hver)⟩
        | drop =>
          rw [hver] at h
          cases h
          exact ⟨hinv.drop hv hver, ⟨rfl, fun _ h => mem_cons_of_mem _ h⟩,
            .inl mem_cons_self⟩
        | list =>
          rw [hver] at h
          obtain ⟨s₁, hloop, hs'⟩ := bind_eq_ok_iff.mp h
          cases hs'
          have hinv₀ : Inv verdict next Seen { s with visiting := a :: s.visiting } :=
            { hinv with
              path := nodup_cons.mpr ⟨hv, hinv.path⟩
              apart := by
                intro b hb
                rcases mem_cons.mp hb with rfl | hb
                · exact he
                · exact hinv.apart b hb
              closed := by
                intro b hb c hc
                rcases hinv.closed b hb c hc with hc | hc | hc
                · exact .inl hc
                · exact .inr (.inl (mem_cons_of_mem a hc))
                · exact .inr (.inr hc) }
          -- the path to a successor is the path to `a`, and `a`
          obtain ⟨hinv₁, hgr, hdone⟩ := foldlM_spec (P := fun b => b ∈ next a)
            (fun {t t' b} hb ht hpath hstep => by
              refine visit_spec hcl (hcl a b hseen ⟨hver, hb⟩) ?_ ht hstep
              intro c hc
              rw [hpath] at hc
              rcases mem_cons.mp hc with rfl | hc
              · exact .single ⟨hver, hb⟩
              · exact (hrch c hc).tail ⟨hver, hb⟩)
            (fun _ hb => hb) hinv₀ rfl hloop
          have hvsg : s₁.visiting = a :: s.visiting := hgr.visiting
          have herase : s₁.visiting.erase a = s.visiting := by
            rw [hvsg, erase_cons_head]
          rw [herase]
          refine ⟨hinv₁.list hvsg hver hseen hrch hdone,
            ⟨rfl, fun b hb => mem_cons_of_mem a (hgr.emitted b hb)⟩,
            .inl mem_cons_self⟩

end

end Spec

/-- There is a way to the vertex from a root, through vertices that are listed. -/
def Visited (verdict : α → Verdict) (next : α → List α) (roots : List α) (a : α) : Prop :=
  ∃ root ∈ roots, Relation.ReflTransGen (Follows verdict next) root a

/-- **The listing.** It has no repetition, holds the visited vertices that are to be listed,
and of every edge either the target stands first or there is a walk back from it. -/
theorem listFrom_spec [DecidableEq α] {k : Nat} {roots order : List α}
    (h : listFrom verdict next outOfFuel k roots = .ok order) :
    order.Nodup ∧ (∀ a, a ∈ order ↔ verdict a = .list ∧ Visited verdict next roots a) ∧
    ∀ a ∈ order, ∀ b ∈ next a, verdict b = .list →
      Before order b a ∨ Relation.TransGen (Follows verdict next) b a := by
  obtain ⟨s, hs, hok⟩ := bind_eq_ok_iff.mp h
  cases hok
  have hsta : Inv verdict next (Visited verdict next roots) .start := Inv.start
  obtain ⟨hinv, hgr, hroots⟩ := foldlM_spec (P := fun a => a ∈ roots)
    (fun {t t' a} ha ht hpath hstep => by
      refine visit_spec ?_ ⟨a, ha, .refl⟩ ?_ ht hstep
      · intro b c hb hbc
        obtain ⟨root, hroot, hrch⟩ := hb
        exact ⟨root, hroot, hrch.tail hbc⟩
      · intro b hb
        rw [hpath] at hb
        cases hb)
    (fun _ ha => ha) hsta rfl hs
  have hemp : s.visiting = [] := hgr.visiting
  -- nothing is in progress any more, so whatever was visited is listed, dropped or skipped
  have hvis : ∀ {root a}, root ∈ roots → Relation.ReflTransGen (Follows verdict next) root a →
      Done verdict s a := by
    intro root a hroot hrch
    induction hrch with
    | refl => exact hroots root hroot
    | @tail b c _ hbc ih =>
      rcases ih with hb | hb | hb
      · exact hinv.closed b ((hinv.listed b).mpr ⟨hb, hbc.1⟩) c hbc.2
      · rw [hemp] at hb
        cases hb
      · rw [hbc.1] at hb
        cases hb
  refine ⟨hinv.nodup, fun a => ⟨fun ha => ⟨((hinv.listed a).mp ha).2, hinv.seen a ha⟩, ?_⟩,
    hinv.before⟩
  intro ha
  obtain ⟨hlist, root, hroot, hrch⟩ := ha
  rcases hvis hroot hrch with hdone | hdone | hdone
  · exact (hinv.listed a).mpr ⟨hdone, hlist⟩
  · rw [hemp] at hdone
    cases hdone
  · rw [hlist] at hdone
    cases hdone

end Dfs

end Lib
