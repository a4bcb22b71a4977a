import Mathlib.Data.List.Sort

/-!
# Maps kept as sorted lists

A finite map as a list of entries in strictly ascending key order. Two such lists with
the same lookups are the same list (`ext`), which is what makes the order of a map's
entries a function of the map.

There are two ways to fill one. `set` finds the place of a key and inserts or replaces
there; `build` takes any list, sorts it stably and keeps the last entry of each key.
Either way the list ascends, and a key has the last value it was given.
-/

namespace Lib

open List

namespace SortedMap

universe u v

variable {κ : Type u} {α : Type v} [LinearOrder κ]

variable (es : List (κ × α))

/-- Strictly increasing in key. -/
def Ascending : Prop := es.Pairwise (fun a b => a.1 < b.1)

instance (es : List (κ × α)) : Decidable (Ascending es) :=
  inferInstanceAs (Decidable (es.Pairwise _))

/-- The value under a key. -/
def find (k : κ) : List (κ × α) → Option α
  | [] => none
  | e :: es => if e.1 = k then some e.2 else find k es

/-- Insert a key at its place, or replace the value it has. -/
def set (k : κ) (a : α) : List (κ × α) → List (κ × α)
  | [] => [(k, a)]
  | e :: es =>
    if e.1 < k then e :: set k a es
    else if e.1 = k then (k, a) :: es
    else (k, a) :: e :: es

theorem find_none_of_lt {k : κ} : ∀ {es : List (κ × α)}, (∀ e ∈ es, k < e.1) → find k es = none
  | [], _ => rfl
  | e :: es, h => by
    have hne : e.1 ≠ k := ne_of_gt (h e mem_cons_self)
    rw [find, if_neg hne]
    exact find_none_of_lt fun e' he' => h e' (mem_cons_of_mem e he')

/-- **A sorted map is its lookups.** -/
theorem ext : ∀ {es es' : List (κ × α)}, Ascending es → Ascending es' →
    (∀ k, find k es = find k es') → es = es'
  | [], [], _, _, _ => rfl
  | [], e :: es', _, _, h => by
    have hk := h e.1
    simp [find] at hk
  | e :: es, [], _, _, h => by
    have hk := h e.1
    simp [find] at hk
  | e :: es, e' :: es', hs, hs', h => by
    obtain ⟨hlt, htail⟩ := pairwise_cons.mp hs
    obtain ⟨hlt', htail'⟩ := pairwise_cons.mp hs'
    -- the smaller of the two first keys would be missing in the other list
    have hkey : e.1 = e'.1 := by
      rcases lt_trichotomy e.1 e'.1 with hcase | hcase | hcase
      · have hmiss : find e.1 (e' :: es') = none := find_none_of_lt fun x hx => by
            rcases mem_cons.mp hx with rfl | hx
            · exact hcase
            · exact lt_trans hcase (hlt' x hx)
        have hk := h e.1
        rw [hmiss] at hk
        simp [find] at hk
      · exact hcase
      · have hmiss : find e'.1 (e :: es) = none := find_none_of_lt fun x hx => by
            rcases mem_cons.mp hx with rfl | hx
            · exact hcase
            · exact lt_trans hcase (hlt x hx)
        have hk := h e'.1
        rw [hmiss] at hk
        simp [find] at hk
    have hvalue : e.2 = e'.2 := by
      have hk := h e.1
      rw [find, if_pos rfl, find, if_pos hkey.symm] at hk
      exact Option.some.inj hk
    have hrest : es = es' := by
      refine ext htail htail' fun k => ?_
      have hk := h k
      rw [find, find] at hk
      by_cases heq : e.1 = k
      · rw [find_none_of_lt fun x hx => heq ▸ hlt x hx,
          find_none_of_lt fun x hx => heq ▸ hkey ▸ hlt' x hx]
      · rw [if_neg heq, if_neg (hkey ▸ heq)] at hk
        exact hk
    rw [hrest, Prod.ext hkey hvalue]

theorem find_of_mem : ∀ {es : List (κ × α)} {e : κ × α}, Ascending es → e ∈ es →
    find e.1 es = some e.2
  | x :: es, e, h, he => by
    obtain ⟨hlt, htail⟩ := pairwise_cons.mp h
    rw [find]
    rcases mem_cons.mp he with rfl | he
    · exact if_pos rfl
    · rw [if_neg (ne_of_lt (hlt e he))]
      exact find_of_mem htail he

/-! ## Setting one key -/

theorem mem_set {k : κ} {a : α} : ∀ {es : List (κ × α)} {e : κ × α}, e ∈ set k a es →
    e = (k, a) ∨ e ∈ es
  | [], e, h => .inl (mem_singleton.mp h)
  | x :: es, e, h => by
    rw [set] at h
    split at h
    · rcases mem_cons.mp h with rfl | h
      · exact .inr mem_cons_self
      · rcases mem_set h with h | h
        · exact .inl h
        · exact .inr (mem_cons_of_mem x h)
    · split at h
      · rcases mem_cons.mp h with h | h
        · exact .inl h
        · exact .inr (mem_cons_of_mem x h)
      · rcases mem_cons.mp h with h | h
        · exact .inl h
        · exact .inr h

theorem ascending_set {k : κ} {a : α} : ∀ {es : List (κ × α)}, Ascending es → Ascending (set k a es)
  | [], _ => pairwise_singleton _ _
  | e :: es, h => by
    obtain ⟨hlt, htail⟩ := pairwise_cons.mp h
    rw [set]
    by_cases hless : e.1 < k
    · rw [if_pos hless]
      refine pairwise_cons.mpr ⟨?_, ascending_set htail⟩
      intro x hx
      rcases mem_set hx with rfl | hx
      · exact hless
      · exact hlt x hx
    · rw [if_neg hless]
      by_cases heq : e.1 = k
      · rw [if_pos heq]
        exact pairwise_cons.mpr ⟨fun x hx => heq ▸ hlt x hx, htail⟩
      · rw [if_neg heq]
        have hgt : k < e.1 := lt_of_le_of_ne (not_lt.mp hless) (Ne.symm heq)
        refine pairwise_cons.mpr ⟨?_, h⟩
        intro x hx
        rcases mem_cons.mp hx with rfl | hx
        · exact hgt
        · exact lt_trans hgt (hlt x hx)

theorem find_set {k : κ} {a : α} (k' : κ) : ∀ {es : List (κ × α)},
    find k' (set k a es) = if k = k' then some a else find k' es
  | [] => rfl
  | e :: es => by
    have ih := @find_set k a k' es
    rw [set]
    by_cases hless : e.1 < k
    · rw [if_pos hless, find, ih, find]
      by_cases hk : e.1 = k'
      · have hne : k ≠ k' := fun h => absurd (hk.trans h.symm) (ne_of_lt hless)
        rw [if_pos hk, if_neg hne, if_pos hk]
      · rw [if_neg hk, if_neg hk]
    · rw [if_neg hless]
      by_cases heq : e.1 = k
      · rw [if_pos heq, find, find, heq]
        by_cases hk : k = k'
        · rw [if_pos hk, if_pos hk]
        · rw [if_neg hk, if_neg hk, if_neg hk]
      · rw [if_neg heq, find]

/-! ## The place of a key -/

/-- How many entries have keys below `k`, counted from the front: where a search by halves ends
on a list that ascends. -/
def place (k : κ) (es : List (κ × α)) : Nat := (es.takeWhile fun e => e.1 < k).length

theorem place_cons (k : κ) (e : κ × α) (es : List (κ × α)) :
    place k (e :: es) = if e.1 < k then place k es + 1 else 0 := by
  by_cases hless : e.1 < k
  · simp [place, hless]
  · simp [place, hless]

/-- The entry at a key's place decides whether `set` replaces or inserts there. -/
theorem set_eq_place (k : κ) (a : α) : ∀ (es : List (κ × α)),
    set k a es =
      match es[place k es]? with
      | some e => if e.1 = k then es.set (place k es) (k, a) else es.insertIdx (place k es) (k, a)
      | none => es.insertIdx (place k es) (k, a)
  | [] => rfl
  | e :: es => by
    rw [set, place_cons]
    by_cases hless : e.1 < k
    · rw [if_pos hless, if_pos hless, set_eq_place k a es, getElem?_cons_succ]
      cases es[place k es]? with
      | none => rfl
      | some e' =>
        by_cases heq : e'.1 = k
        · simp only [heq, if_true, set_cons_succ]
        · simp only [heq, if_false, insertIdx_succ_cons]
    · rw [if_neg hless, if_neg hless, getElem?_cons_zero]
      by_cases heq : e.1 = k
      · simp only [heq, if_true, set_cons_zero]
      · simp only [heq, if_false, insertIdx_zero]

/-- On a list that ascends, a key is at its place or nowhere. -/
theorem find_eq_place (k : κ) : ∀ {es : List (κ × α)}, Ascending es → find k es =
      match es[place k es]? with
      | some e => if e.1 = k then some e.2 else none
      | none => none
  | [], _ => rfl
  | e :: es, h => by
    obtain ⟨hlt, htail⟩ := pairwise_cons.mp h
    rw [find, place_cons]
    by_cases hless : e.1 < k
    · rw [if_pos hless, if_neg (ne_of_lt hless), find_eq_place k htail, getElem?_cons_succ]
    · rw [if_neg hless, getElem?_cons_zero]
      by_cases heq : e.1 = k
      · rw [if_pos heq]
        exact (if_pos heq).symm
      · have hgt : k < e.1 := lt_of_le_of_ne (not_lt.mp hless) (Ne.symm heq)
        rw [if_neg heq, find_none_of_lt fun x hx => lt_trans hgt (hlt x hx)]
        exact (if_neg heq).symm

/-! ## Building at once -/

/-- Of a run of entries with one key, keep the last. -/
def keepLast : List (κ × α) → List (κ × α)
  | [] => []
  | [e] => [e]
  | e :: e' :: es => if e.1 = e'.1 then keepLast (e' :: es) else e :: keepLast (e' :: es)

/-- Sort by key, stably, and keep the last entry of each key. -/
def build : List (κ × α) :=
  keepLast (es.insertionSort fun a b => a.1 ≤ b.1)

/-- The value of the last entry with key `k`, in a list of any order. -/
def last (k : κ) : List (κ × α) → Option α
  | [] => none
  | e :: es => (last k es).or (if e.1 = k then some e.2 else none)

theorem last_cons (k : κ) (e : κ × α) (es : List (κ × α)) :
    last k (e :: es) = (last k es).or (if e.1 = k then some e.2 else none) := rfl

theorem last_none_of_ne {k : κ} : ∀ {es : List (κ × α)}, (∀ e ∈ es, e.1 ≠ k) → last k es = none
  | [], _ => rfl
  | e :: es, h => by
    rw [last, if_neg (h e mem_cons_self),
      last_none_of_ne fun e' he' => h e' (mem_cons_of_mem e he')]
    rfl

theorem mem_of_last {k : κ} {a : α} : ∀ {es : List (κ × α)}, last k es = some a → (k, a) ∈ es
  | e :: es, h => by
    rw [last] at h
    cases hlast : last k es with
    | some _ =>
      rw [hlast] at h
      cases h
      exact mem_cons_of_mem e (mem_of_last hlast)
    | none =>
      rw [hlast, Option.none_or] at h
      split at h
      · next hkey =>
        cases h
        rw [← hkey]
        exact mem_cons_self
      · cases h

theorem last_none_of_lt {k : κ} {es : List (κ × α)} (h : ∀ e ∈ es, k < e.1) : last k es = none :=
  last_none_of_ne fun e he => ne_of_gt (h e he)

/-- Run by run: of the entries that share the first key the last stays, and the rest follows. -/
theorem keepLast_run (p : κ × α → Bool) : ∀ (e : κ × α) (es : List (κ × α)),
    (∀ x, p x = true ↔ x.1 = e.1) → ∃ init l, (e :: es).takeWhile p = init ++ [l] ∧
      keepLast (e :: es) = l :: keepLast ((e :: es).dropWhile p)
  | e, [], hp => by
    have hself : p e = true := (hp e).mpr rfl
    exact ⟨[], e, by simp [hself], by simp [keepLast, hself]⟩
  | e, e' :: es, hp => by
    have hself : p e = true := (hp e).mpr rfl
    rw [takeWhile_cons_of_pos hself, dropWhile_cons_of_pos hself]
    by_cases hkey : e.1 = e'.1
    · obtain ⟨init, l, htake, hkeep⟩ := keepLast_run p e' es (hkey ▸ hp)
      refine ⟨e :: init, l, ?_, ?_⟩
      · rw [htake]
        rfl
      · rw [keepLast, if_pos hkey, hkeep]
    · have hnext : ¬ p e' = true := fun h => hkey ((hp e').mp h).symm
      refine ⟨[], e, ?_, ?_⟩
      · rw [takeWhile_cons_of_neg hnext]
        rfl
      · rw [keepLast, if_neg hkey, dropWhile_cons_of_neg hnext]

theorem mem_keepLast : ∀ {es : List (κ × α)} {e : κ × α}, e ∈ keepLast es → e ∈ es
  | [], _, h => h
  | [_], _, h => h
  | x :: x' :: es, e, h => by
    rw [keepLast] at h
    split at h
    · exact mem_cons_of_mem x (mem_keepLast h)
    · rcases mem_cons.mp h with rfl | h
      · exact mem_cons_self
      · exact mem_cons_of_mem x (mem_keepLast h)

theorem length_keepLast_le : ∀ (es : List (κ × α)), (keepLast es).length ≤ es.length
  | [] => Nat.le_refl _
  | [_] => Nat.le_refl _
  | e :: e' :: es => by
    have ih : (keepLast (e' :: es)).length ≤ (e' :: es).length := length_keepLast_le (e' :: es)
    rw [keepLast, length_cons]
    split
    · exact Nat.le_succ_of_le ih
    · exact Nat.succ_le_succ ih

/-- In front of a key that is not its own, an entry of a sorted list is below all the rest. -/
theorem lt_of_sorted {e e' : κ × α} {es : List (κ × α)}
    (h : (e :: e' :: es).Pairwise fun a b => a.1 ≤ b.1) (hne : e.1 ≠ e'.1) :
    ∀ x ∈ e' :: es, e.1 < x.1 := by
  obtain ⟨hle, htail⟩ := pairwise_cons.mp h
  have hlt : e.1 < e'.1 := lt_of_le_of_ne (hle e' mem_cons_self) hne
  intro x hx
  rcases mem_cons.mp hx with rfl | hx
  · exact hlt
  · exact lt_of_lt_of_le hlt ((pairwise_cons.mp htail).1 x hx)

theorem ascending_keepLast : ∀ {es : List (κ × α)}, (es.Pairwise fun a b => a.1 ≤ b.1) →
    Ascending (keepLast es)
  | [], _ => List.Pairwise.nil
  | [_], _ => pairwise_singleton _ _
  | e :: e' :: es, h => by
    have ih : Ascending (keepLast (e' :: es)) := ascending_keepLast (pairwise_cons.mp h).2
    rw [keepLast]
    by_cases hkey : e.1 = e'.1
    · rw [if_pos hkey]
      exact ih
    · rw [if_neg hkey]
      exact pairwise_cons.mpr ⟨fun x hx => lt_of_sorted h hkey x (mem_keepLast hx), ih⟩

theorem find_keepLast (k : κ) : ∀ {es : List (κ × α)}, (es.Pairwise fun a b => a.1 ≤ b.1) →
    find k (keepLast es) = last k es
  | [], _ => rfl
  | [_], _ => rfl
  | e :: e' :: es, h => by
    have ih : find k (keepLast (e' :: es)) = last k (e' :: es) :=
      find_keepLast k (pairwise_cons.mp h).2
    rw [keepLast, last_cons k e (e' :: es)]
    by_cases hkey : e.1 = e'.1
    · -- the run goes on: `e` is looked up only where `e'` answers already
      rw [if_pos hkey, ih, hkey]
      by_cases hk : e'.1 = k
      · rw [if_pos hk, last, if_pos hk]
        cases last k es <;> rfl
      · rw [if_neg hk, Option.or_none]
    · rw [if_neg hkey, find, ih]
      by_cases hk : e.1 = k
      · rw [if_pos hk, if_pos hk, last_none_of_lt fun x hx => hk ▸ lt_of_sorted h hkey x hx]
        rfl
      · rw [if_neg hk, if_neg hk, Option.or_none]

/-- Inserting in order moves an entry past smaller keys only, so the last of each key stays. -/
theorem last_orderedInsert (k : κ) (e : κ × α) : ∀ (es : List (κ × α)),
    last k (es.orderedInsert (fun a b => a.1 ≤ b.1) e) = last k (e :: es)
  | [] => rfl
  | x :: es => by
    rw [orderedInsert_cons]
    by_cases hle : e.1 ≤ x.1
    · rw [if_pos hle]
    · rw [if_neg hle, last, last_orderedInsert k e es, last, last, last]
      by_cases hk : x.1 = k
      · have hne : e.1 ≠ k := fun he => hle (le_of_eq (he.trans hk.symm))
        rw [if_pos hk, if_neg hne, Option.or_none, Option.or_none]
      · rw [if_neg hk, Option.or_none, Option.or_none]

theorem last_insertionSort (k : κ) : ∀ (es : List (κ × α)),
    last k (es.insertionSort fun a b => a.1 ≤ b.1) = last k es
  | [] => rfl
  | e :: es => by
    rw [insertionSort_cons, last_orderedInsert, last, last_insertionSort k es, last]

theorem sorted_insertionSort :
    (es.insertionSort fun a b => a.1 ≤ b.1).Pairwise fun a b => a.1 ≤ b.1 :=
  haveI : Std.Total fun a b : κ × α => a.1 ≤ b.1 := ⟨fun a b => le_total a.1 b.1⟩
  haveI : IsTrans (κ × α) fun a b => a.1 ≤ b.1 := ⟨fun _ _ _ => le_trans⟩
  pairwise_insertionSort _ es

theorem ascending_build : Ascending (build es) :=
  ascending_keepLast (sorted_insertionSort es)

theorem find_build (k : κ) (es : List (κ × α)) : find k (build es) = last k es := by
  rw [build, find_keepLast k (sorted_insertionSort es), last_insertionSort]

theorem length_build_le : (build es).length ≤ es.length := by
  have h := length_keepLast_le (es.insertionSort fun a b => a.1 ≤ b.1)
  rwa [length_insertionSort] at h

theorem mem_build {es : List (κ × α)} {e : κ × α} (h : e ∈ build es) : e ∈ es :=
  (mem_insertionSort _).mp (mem_keepLast h)

/-- A list that ascends already is built into itself. -/
theorem build_of_ascending {es : List (κ × α)} (h : Ascending es) : build es = es := by
  refine ext (ascending_build es) h fun k => ?_
  rw [find_build]
  induction es with
  | nil => rfl
  | cons e es ih =>
    obtain ⟨hlt, htail⟩ := pairwise_cons.mp h
    rw [last, find]
    by_cases hk : e.1 = k
    · rw [if_pos hk, if_pos hk, last_none_of_lt fun x hx => hk ▸ hlt x hx]
      rfl
    · rw [if_neg hk, if_neg hk, Option.or_none, ih htail]

theorem last_of_ascending {es : List (κ × α)} (h : Ascending es) (k : κ) :
    last k es = find k es := by
  rw [← find_build, build_of_ascending h]

end SortedMap

end Lib
